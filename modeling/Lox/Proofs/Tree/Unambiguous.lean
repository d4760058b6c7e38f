import Lox.Proofs.Execution.Nodes
import Lox.Proofs.Number.RoundTrip
import Lox.Proofs.Tree.Form

/-!
# A dump determines its tree

A dump keeps no quotes and no lines, so texts can be mistaken for anything, and trees that differ in
their lines only have the same dump.  Nothing else is lost: two statements that were read from
source texts, with no texts among their literals and finite numbers only, are the same up to their
lines if they have the same dump (`dump_determines_tree`).

The proof goes through the bracketed form of a tree, and reads the form back.

* `Stmt.text_form`: the dump is the text of the form.
* `Stmt.form_spec`: the form is legible, and read back it is the tree without its lines.
* A legible form is determined by its text (`Form.eq_of_text_eq`).

Reading back is possible since every head is a word for one sort of node, or the spelling of an
operator, and `-`, the only operator of both sorts, is told by the number of its operands.  A word
is a keyword, or a name if there is a letter in it, or else a numeral.
-/

namespace Lox

open Lexicon (WellFormed)

/-! ### Tokens without lines -/

/-- The token on no line. -/
def Token.unlined (t : Token) : Token := { t with line := 0 }

/-- The token that a text is scanned as, on no line. -/
def Token.spelled (text : String) : Token :=
  ⟨((Piece.split text.toList).head?.bind Piece.kind?).getD .eof, text, 0⟩

/-- **The lexeme of a well-formed token is enough to know the token by.** -/
theorem Lexicon.WellFormed.spelled_lexeme {t : Token} (h : WellFormed t) :
    Token.spelled t.lexeme = t.unlined := by
  obtain ⟨p, hsplit, -, hkind⟩ := h.exists_piece
  rw [Token.spelled, hsplit, List.head?_cons, Option.bind_some, hkind]
  rfl

/-! ### Words that are names -/

theorem Lexicon.unmarked_of_wordChar {c : Char} (h : Letter c ∨ Digit c) :
    c ∉ [' ', '(', ')'] := by
  have hc := isWordChar_iff.mpr h
  intro hmem
  simp only [List.mem_cons, List.not_mem_nil, or_false] at hmem
  rcases hmem with rfl | rfl | rfl
  · exact absurd hc (by decide)
  · exact absurd hc (by decide)
  · exact absurd hc (by decide)

theorem Lexicon.Word.isWord {cs : List Char} (h : Word cs) : Form.IsWord (String.ofList cs) := by
  cases h with
  | @mk c cs hc hcs =>
    refine ⟨by simp, ?_⟩
    rw [String.toList_ofList, List.forall_mem_cons]
    exact ⟨unmarked_of_wordChar (.inl hc), fun d hd => unmarked_of_wordChar (hcs d hd)⟩

theorem Lexicon.WellFormed.isWord_name {t : Token} (h : WellFormed t) (hname : Expr.Name t) :
    Form.IsWord t.lexeme := by
  rcases hname with ⟨name, hkind⟩
  cases h with
  | identifier hword hk line => exact hword.isWord
  | symbol s line => cases hkind
  | keyword k line => cases hkind
  | number hnumeral line => cases hkind
  | string htext line => cases hkind

/-- The expression that a word is the dump of. -/
def Form.leaf (text : String) : Expr :=
  match (Token.spelled text).kind with
  | .identifier _ => .name (Token.spelled text)
  | .keyword k => .literal ((Parser.literal? (.keyword k)).getD .nil)
  | _ => .literal (.number (Number.ofChars text.toList))

theorem Lexicon.WellFormed.leaf_name {t : Token} (h : WellFormed t) (hname : Expr.Name t) :
    Form.leaf t.lexeme = .name t.unlined := by
  rcases hname with ⟨name, hkind⟩
  have hunlined : t.unlined.kind = .identifier name := hkind
  rw [Form.leaf, h.spelled_lexeme, hunlined]

/-! ### Words that are literals -/

theorem Form.leaf_keyword (k : Keyword) : Form.leaf (String.ofList k.spelling) =
    .literal ((Parser.literal? (.keyword k)).getD .nil) := by
  have hspelled : Token.spelled (String.ofList k.spelling) = ⟨.keyword k, _, 0⟩ :=
    (WellFormed.keyword k 0).spelled_lexeme
  rw [Form.leaf, hspelled]

/-- The value is not a text, and is finite if it is a number. -/
def Value.Plain : Value → Prop
  | nil => True
  | bool _ => True
  | number x => x.isFinite = true
  | string _ => False

theorem Lexicon.Numeral.ofChars_minus {t : List Char} (h : Numeral t) :
    Number.ofChars ('-' :: t) = -Number.ofChars t := by
  have hminus : ∀ cs, t = '-' :: cs → False := by
    rintro cs rfl
    rcases h.digit_or_point (c := '-') (by simp) with hdigit | hpoint
    · exact absurd (isDigit_iff.mpr hdigit) (by decide)
    · exact absurd hpoint (by decide)
  rw [Number.ofChars, Number.ofChars]
  exact hminus

namespace Number

theorem digit_or_mark {x : Float} (h : x.isFinite) {c : Char} (hc : c ∈ (text x).toList) :
    Decimal.isDigit c = true ∨ c = '.' ∨ c = '-' := by
  rw [toList_text h, List.mem_append] at hc
  rcases hc with hc | hc
  · split at hc
    · exact .inr (.inr (List.mem_singleton.mp hc))
    · cases hc
  · rcases (Decimal.numeral_toChars _).digit_or_point hc with hdigit | hpoint
    · exact .inl (Lexicon.isDigit_iff.mpr hdigit)
    · exact .inr (.inl hpoint)

theorem isWord_text {x : Float} (h : x.isFinite) : Form.IsWord (text x) := by
  refine ⟨?_, ?_⟩
  · have hnumeral := Decimal.numeral_toChars (Decimal.shortest (code x))
    have hne := (Lexicon.Regular.number (Lexicon.longest_nil hnumeral)).ne_nil
    rw [toList_text h]
    simp [hne]
  · intro c hc hmem
    have hdigit := digit_or_mark h hc
    simp only [List.mem_cons, List.not_mem_nil, or_false] at hmem
    rcases hmem with rfl | rfl | rfl
    · exact absurd hdigit (by decide)
    · exact absurd hdigit (by decide)
    · exact absurd hdigit (by decide)

/-- **The text of a finite number reads back as that number.** -/
theorem ofChars_text {x : Float} (h : x.isFinite) : ofChars (text x).toList = x := by
  have hread := ofChars_shortest (code_lt_infinityCode h)
  have hx := eq_ofBits_code h
  rw [toList_text h]
  cases hsign : isNegative x with
  | false =>
    rw [hsign] at hx
    rw [if_neg Bool.false_ne_true, List.nil_append, hread]
    exact hx.symm
  | true =>
    rw [hsign] at hx
    rw [if_pos rfl, List.singleton_append, (Decimal.numeral_toChars _).ofChars_minus, hread]
    exact hx.symm

/-- The text of a number is scanned as a numeral, or as a minus sign first. -/
theorem kind_spelled_text {x : Float} (h : x.isFinite) :
    (Token.spelled (text x)).kind = .symbol .minus ∨
      ∃ y, (Token.spelled (text x)).kind = .number y := by
  have hnumeral := Decimal.numeral_toChars (Decimal.shortest (code x))
  cases hsign : isNegative x with
  | true =>
    left
    have hminus : Lexicon.Regular ['-'] (Decimal.shortest (code x)).toChars
        (.token (.symbol .minus)) :=
      Lexicon.regular_symbol .minus (by intro t; cases t <;> decide) nofun _
    obtain ⟨p, hsplit, -, hyields⟩ := Lexicon.exists_split_of_regular hminus
    rw [Token.spelled, toList_text h, hsign, if_pos rfl, hsplit, List.head?_cons,
      Option.bind_some, Lexicon.kind?_of_yields_token hyields]
    rfl
  | false =>
    right
    have htext : text x = String.ofList (Decimal.shortest (code x)).toChars := by
      rw [← String.toList_inj, toList_text h, hsign, String.toList_ofList,
        if_neg Bool.false_ne_true, List.nil_append]
    rw [htext, (WellFormed.number hnumeral 0).spelled_lexeme]
    exact ⟨_, rfl⟩

end Number

/-- **The dump of a literal is a word for it,** unless it is a text or no finite number. -/
theorem Value.Plain.leaf_text {v : Value} (h : v.Plain) :
    Form.IsWord v.text ∧ Form.leaf v.text = .literal v := by
  cases v with
  | nil => exact ⟨(Lexicon.word_spelling .nilKw).isWord, Form.leaf_keyword .nilKw⟩
  | bool b =>
    cases b with
    | true => exact ⟨(Lexicon.word_spelling .trueKw).isWord, Form.leaf_keyword .trueKw⟩
    | false => exact ⟨(Lexicon.word_spelling .falseKw).isWord, Form.leaf_keyword .falseKw⟩
  | number x =>
    refine ⟨Number.isWord_text h, ?_⟩
    have hread : Form.leaf (Value.number x).text =
        .literal (.number (Number.ofChars (Number.text x).toList)) := by
      rcases Number.kind_spelled_text h with hkind | ⟨y, hkind⟩
      · rw [Form.leaf, Value.text, hkind]
      · rw [Form.leaf, Value.text, hkind]
    rw [hread, Number.ofChars_text h]
  | string s => exact absurd h id

/-! ### Heads that are operators -/

/-- The spelling of a symbol or a keyword. -/
def Kind.spelling? : Kind → Option String
  | .symbol s => some (String.ofList s.spelling)
  | .keyword k => some (String.ofList k.spelling)
  | _ => none

theorem Lexicon.WellFormed.lexeme_eq {t : Token} (h : WellFormed t) {text : String}
    (htext : t.kind.spelling? = some text) : t.lexeme = text := by
  cases h with
  | symbol s line => exact Option.some.inj htext
  | keyword k line => exact Option.some.inj htext
  | identifier hword hk line => cases htext
  | number hnumeral line => cases htext
  | string hquote line => cases htext

/-- A token of certain kinds has one of the lexemes that these are spelled as. -/
theorem Lexicon.WellFormed.lexeme_mem {t : Token} (h : WellFormed t) {ks : List Kind}
    {texts : List String} (hkind : t.kind ∈ ks)
    (hks : ∀ k ∈ ks, ∃ text ∈ texts, k.spelling? = some text) : t.lexeme ∈ texts := by
  rcases hks t.kind hkind with ⟨text, hmem, htext⟩
  rw [h.lexeme_eq htext]
  exact hmem

namespace Kind

/-- The spellings of the operators before an operand. -/
def unaryHeads : List String := ["!", "-"]

/-- The spellings of the operators of equality, comparison and arithmetic. -/
def binaryHeads : List String := ["!=", "==", ">", ">=", "<", "<=", "-", "+", "/", "*"]

/-- The spellings of the operators that may leave out their right operand. -/
def logicalHeads : List String := ["and", "or"]

theorem spelling?_unary : ∀ k ∈ unaryOperators, ∃ text ∈ unaryHeads, k.spelling? = some text := by
  decide

theorem spelling?_binary :
    ∀ k ∈ binaryOperators, ∃ text ∈ binaryHeads, k.spelling? = some text := by
  decide

theorem spelling?_logical :
    ∀ k ∈ logicalOperators, ∃ text ∈ logicalHeads, k.spelling? = some text := by
  decide

end Kind

namespace Form

theorem isWord_unary : ∀ text ∈ Kind.unaryHeads, IsWord text ∧ text ≠ "group" := by decide

theorem isWord_binary :
    ∀ text ∈ Kind.binaryHeads, IsWord text ∧ text ≠ "assign" ∧ text ∉ Kind.logicalHeads := by
  decide

theorem isWord_logical : ∀ text ∈ Kind.logicalHeads, IsWord text ∧ text ≠ "assign" := by decide

end Form

/-! ### The forms of expressions -/

/-- The form that the dump of an expression is the text of. -/
def Expr.form : Expr → Form
  | .literal v => .word v.text
  | .grouping e => .node "group" [e.form]
  | .name t => .word t.lexeme
  | .assign t e => .node "assign" [.word t.lexeme, e.form]
  | .unary op e => .node op.lexeme [e.form]
  | .binary l op r => .node op.lexeme [l.form, r.form]
  | .logical l op r => .node op.lexeme [l.form, r.form]

theorem Expr.text_form : ∀ e : Expr, e.form.text = e.dump := by
  intro e
  induction e with
  | literal v => rfl
  | grouping e ih => simp [form, dump, Form.text, Form.textEach, ih]
  | name t => rfl
  | assign t e ih => simp [form, dump, Form.text, Form.textEach, ih]
  | unary op e ih => simp [form, dump, Form.text, Form.textEach, ih]
  | binary l op r ihl ihr => simp [form, dump, Form.text, Form.textEach, ihl, ihr]
  | logical l op r ihl ihr => simp [form, dump, Form.text, Form.textEach, ihl, ihr]

/-- The expression, on no lines, that has the given form. -/
def Form.expr? : Form → Option Expr
  | word text => some (leaf text)
  | node "group" [e] => e.expr?.map .grouping
  | node "assign" [word name, e] => e.expr?.map (.assign (.spelled name))
  | node op [e] => e.expr?.map (.unary (.spelled op))
  | node op [l, r] => do
    let l ← l.expr?
    let r ← r.expr?
    return if op ∈ Kind.logicalHeads then .logical l (.spelled op) r else .binary l (.spelled op) r
  | _ => none

/-- **The form of an expression is legible, and read back it is the expression on no lines.** -/
theorem Expr.form_spec : ∀ {e : Expr}, e.Shaped → (∀ t ∈ e.tokens, WellFormed t) →
    (∀ v, .literal v ∈ e.nodes → v.Plain) →
    e.form.Legible ∧ e.form.expr? = some (e.relabel Token.unlined) := by
  intro e
  induction e with
  | literal v =>
    intro _ _ hplain
    rcases (hplain v (by simp [nodes])).leaf_text with ⟨hword, hleaf⟩
    exact ⟨hword, congrArg some hleaf⟩
  | grouping e ih =>
    intro hshaped hformed hplain
    rcases ih hshaped hformed fun v hv => hplain v (by simp [nodes, hv]) with ⟨hlegible, hread⟩
    refine ⟨⟨by decide, hlegible, trivial⟩, ?_⟩
    rw [form, Form.expr?, hread]
    rfl
  | name t =>
    intro hname hformed _
    have ht := hformed t (by simp [tokens])
    exact ⟨ht.isWord_name hname, congrArg some (ht.leaf_name hname)⟩
  | assign t e ih =>
    intro hshaped hformed hplain
    rw [tokens, List.forall_mem_cons] at hformed
    rcases ih hshaped.2 hformed.2 fun v hv => hplain v (by simp [nodes, hv]) with
      ⟨hlegible, hread⟩
    refine ⟨⟨by decide, hformed.1.isWord_name hshaped.1, hlegible, trivial⟩, ?_⟩
    rw [form, Form.expr?, hread, hformed.1.spelled_lexeme]
    rfl
  | unary op e ih =>
    intro hshaped hformed hplain
    rw [tokens, List.forall_mem_cons] at hformed
    rcases ih hshaped.2.1 hformed.2 fun v hv => hplain v (by simp [nodes, hv]) with
      ⟨hlegible, hread⟩
    have hhead := hformed.1.lexeme_mem hshaped.1 Kind.spelling?_unary
    rcases Form.isWord_unary _ hhead with ⟨hword, hgroup⟩
    refine ⟨⟨hword, hlegible, trivial⟩, ?_⟩
    rw [form, Form.expr?, hread, hformed.1.spelled_lexeme]
    · rfl
    · exact hgroup
  | binary l op r ihl ihr =>
    intro hshaped hformed hplain
    rw [tokens, List.forall_mem_append, List.forall_mem_cons] at hformed
    rcases ihl hshaped.2.1 hformed.1 fun v hv => hplain v (by simp [nodes, hv]) with
      ⟨hlegiblel, hreadl⟩
    rcases ihr hshaped.2.2.1 hformed.2.2 fun v hv => hplain v (by simp [nodes, hv]) with
      ⟨hlegibler, hreadr⟩
    have hhead := hformed.2.1.lexeme_mem hshaped.1 Kind.spelling?_binary
    rcases Form.isWord_binary _ hhead with ⟨hword, hassign, hlogical⟩
    refine ⟨⟨hword, hlegiblel, hlegibler, trivial⟩, ?_⟩
    rw [form, Form.expr?, hreadl, hreadr, hformed.2.1.spelled_lexeme]
    · simp [hlogical, relabel]
    · exact fun _ heq _ => hassign heq
  | logical l op r ihl ihr =>
    intro hshaped hformed hplain
    rw [tokens, List.forall_mem_append, List.forall_mem_cons] at hformed
    rcases ihl hshaped.2.1 hformed.1 fun v hv => hplain v (by simp [nodes, hv]) with
      ⟨hlegiblel, hreadl⟩
    rcases ihr hshaped.2.2.1 hformed.2.2 fun v hv => hplain v (by simp [nodes, hv]) with
      ⟨hlegibler, hreadr⟩
    have hhead := hformed.2.1.lexeme_mem hshaped.1 Kind.spelling?_logical
    rcases Form.isWord_logical _ hhead with ⟨hword, hassign⟩
    refine ⟨⟨hword, hlegiblel, hlegibler, trivial⟩, ?_⟩
    rw [form, Form.expr?, hreadl, hreadr, hformed.2.1.spelled_lexeme]
    · simp [hhead, relabel]
    · exact fun _ heq _ => hassign heq

/-! ### The forms of statements -/

mutual

/-- The form that the dump of a statement is the text of. -/
def Stmt.form : Stmt → Form
  | .block body => .node "block" (Stmt.formEach body)
  | .expr e => .node ";" [e.form]
  | .print e => .node "print" [e.form]
  | .declare t none => .node "var" [.word t.lexeme]
  | .declare t (some e) => .node "var" [.word t.lexeme, e.form]
  | .ifThen c yes => .node "if" [c.form, yes.form]
  | .ifElse c yes no => .node "if" [c.form, yes.form, no.form]
  | .loop c body => .node "while" [c.form, body.form]

/-- The forms of statements. -/
def Stmt.formEach : List Stmt → List Form
  | [] => []
  | s :: ss => s.form :: Stmt.formEach ss

end

mutual

@[simp]
theorem Stmt.text_form (s : Stmt) : s.form.text = s.dump := by
  cases s with
  | block body => rw [form, Form.text, textEach_formEach body, dump]
  | expr e => simp [form, dump, Form.text, Form.textEach, e.text_form]
  | print e => simp [form, dump, Form.text, Form.textEach, e.text_form]
  | declare t initial =>
    cases initial with
    | none => simp [form, dump, Form.text, Form.textEach]
    | some e => simp [form, dump, Form.text, Form.textEach, e.text_form]
  | ifThen c yes => simp [form, dump, Form.text, Form.textEach, c.text_form, yes.text_form]
  | ifElse c yes no =>
    simp [form, dump, Form.text, Form.textEach, c.text_form, yes.text_form, no.text_form]
  | loop c body => simp [form, dump, Form.text, Form.textEach, c.text_form, body.text_form]

@[simp]
theorem Stmt.textEach_formEach (ss : List Stmt) :
    Form.textEach (Stmt.formEach ss) = Stmt.dumpEach ss := by
  cases ss with
  | nil => simp [formEach, dumpEach, Form.textEach]
  | cons s ss => rw [formEach, Form.textEach, s.text_form, textEach_formEach ss, dumpEach]

end

mutual

/-- The statement, on no lines, that has the given form. -/
def Form.stmt? : Form → Option Stmt
  | node "block" body => (stmts? body).map .block
  | node ";" [e] => e.expr?.map .expr
  | node "print" [e] => e.expr?.map .print
  | node "var" [word name] => some (.declare (.spelled name) none)
  | node "var" [word name, e] => e.expr?.map fun e => .declare (.spelled name) (some e)
  | node "if" [c, yes] => do return .ifThen (← c.expr?) (← yes.stmt?)
  | node "if" [c, yes, no] => do return .ifElse (← c.expr?) (← yes.stmt?) (← no.stmt?)
  | node "while" [c, body] => do return .loop (← c.expr?) (← body.stmt?)
  | _ => none

/-- The statements, on no lines, that have the given forms. -/
def Form.stmts? : List Form → Option (List Stmt)
  | [] => some []
  | f :: fs => do return (← f.stmt?) :: (← stmts? fs)

end

mutual

/-- **The form of a statement is legible, and read back it is the statement on no lines.** -/
theorem Stmt.form_spec (s : Stmt) (hshaped : s.Shaped) (hformed : ∀ t ∈ s.tokens, WellFormed t)
    (hplain : ∀ v, .literal v ∈ s.nodes → v.Plain) :
    s.form.Legible ∧ s.form.stmt? = some (s.relabel Token.unlined) := by
  cases s with
  | block body =>
    rw [Shaped] at hshaped
    rw [tokens] at hformed
    rw [nodes] at hplain
    rcases formEach_spec body hshaped hformed hplain with ⟨hlegible, hread⟩
    refine ⟨⟨by decide, hlegible⟩, ?_⟩
    rw [form, Form.stmt?, hread, relabel]
    rfl
  | expr e =>
    rw [Shaped] at hshaped
    rw [tokens] at hformed
    rw [nodes] at hplain
    rcases Expr.form_spec hshaped hformed hplain with ⟨hlegible, hread⟩
    refine ⟨⟨by decide, hlegible, trivial⟩, ?_⟩
    rw [form, Form.stmt?, hread, relabel]
    rfl
  | print e =>
    rw [Shaped] at hshaped
    rw [tokens] at hformed
    rw [nodes] at hplain
    rcases Expr.form_spec hshaped hformed hplain with ⟨hlegible, hread⟩
    refine ⟨⟨by decide, hlegible, trivial⟩, ?_⟩
    rw [form, Form.stmt?, hread, relabel]
    rfl
  | declare t initial =>
    cases initial with
    | none =>
      rw [Shaped] at hshaped
      rw [tokens, List.forall_mem_singleton] at hformed
      refine ⟨⟨by decide, hformed.isWord_name hshaped, trivial⟩, ?_⟩
      rw [form, Form.stmt?, hformed.spelled_lexeme, relabel]
    | some e =>
      rw [Shaped] at hshaped
      rw [tokens, List.forall_mem_cons] at hformed
      rw [nodes] at hplain
      rcases Expr.form_spec hshaped.2 hformed.2 hplain with ⟨hlegible, hread⟩
      refine ⟨⟨by decide, hformed.1.isWord_name hshaped.1, hlegible, trivial⟩, ?_⟩
      rw [form, Form.stmt?, hread, hformed.1.spelled_lexeme, relabel]
      rfl
  | ifThen c yes =>
    rw [Shaped] at hshaped
    rw [tokens, List.forall_mem_append] at hformed
    rcases Expr.form_spec hshaped.1 hformed.1 fun v hv => hplain v (by simp [nodes, hv]) with
      ⟨hlegible, hread⟩
    rcases yes.form_spec hshaped.2.1 hformed.2 fun v hv => hplain v (by simp [nodes, hv]) with
      ⟨hlegible', hread'⟩
    refine ⟨⟨by decide, hlegible, hlegible', trivial⟩, ?_⟩
    rw [form, Form.stmt?, hread, hread', relabel]
    rfl
  | ifElse c yes no =>
    rw [Shaped] at hshaped
    rw [tokens, List.forall_mem_append, List.forall_mem_append] at hformed
    rcases Expr.form_spec hshaped.1 hformed.1 fun v hv => hplain v (by simp [nodes, hv]) with
      ⟨hlegible, hread⟩
    rcases yes.form_spec hshaped.2.1.1 hformed.2.1 fun v hv => hplain v (by simp [nodes, hv]) with
      ⟨hlegible', hread'⟩
    rcases no.form_spec hshaped.2.2.1 hformed.2.2 fun v hv => hplain v (by simp [nodes, hv]) with
      ⟨hlegible'', hread''⟩
    refine ⟨⟨by decide, hlegible, hlegible', hlegible'', trivial⟩, ?_⟩
    rw [form, Form.stmt?, hread, hread', hread'', relabel]
    rfl
  | loop c body =>
    rw [Shaped] at hshaped
    rw [tokens, List.forall_mem_append] at hformed
    rcases Expr.form_spec hshaped.1 hformed.1 fun v hv => hplain v (by simp [nodes, hv]) with
      ⟨hlegible, hread⟩
    rcases body.form_spec hshaped.2.1 hformed.2 fun v hv => hplain v (by simp [nodes, hv]) with
      ⟨hlegible', hread'⟩
    refine ⟨⟨by decide, hlegible, hlegible', trivial⟩, ?_⟩
    rw [form, Form.stmt?, hread, hread', relabel]
    rfl

theorem Stmt.formEach_spec (ss : List Stmt) (hshaped : Stmt.ShapedEach ss)
    (hformed : ∀ t ∈ Stmt.tokensOf ss, WellFormed t)
    (hplain : ∀ v, .literal v ∈ Stmt.nodesOf ss → v.Plain) :
    Form.LegibleEach (Stmt.formEach ss) ∧
      Form.stmts? (Stmt.formEach ss) = some (Stmt.relabelEach Token.unlined ss) := by
  cases ss with
  | nil =>
    rw [formEach, Form.stmts?, relabelEach]
    exact ⟨trivial, rfl⟩
  | cons s ss =>
    rw [ShapedEach] at hshaped
    rw [tokensOf, List.forall_mem_append] at hformed
    rcases s.form_spec hshaped.1 hformed.1 fun v hv => hplain v (by simp [nodesOf, hv]) with
      ⟨hlegible, hread⟩
    rcases formEach_spec ss hshaped.2 hformed.2 fun v hv => hplain v (by simp [nodesOf, hv]) with
      ⟨hlegible', hread'⟩
    refine ⟨⟨hlegible, hlegible'⟩, ?_⟩
    rw [formEach, Form.stmts?, hread, hread', relabelEach]
    rfl

end

/-! ### Statements of source texts -/

theorem wellFormed_of_mem_tokens {source : String} {s : Stmt}
    (hs : s ∈ (parse (scan source).tokens).statements) : ∀ t ∈ s.tokens, WellFormed t := by
  intro t ht
  have hbody := mem_body_of_mem_parse hs ht
  rw [Scan.body_scan] at hbody
  exact Lexicon.wellFormed_of_mem_words hbody

/-- **A dump determines its tree, up to lines.**  Let two statements be read from source texts,
which may have errors elsewhere, and let none of their literals be a text or a number that is not
finite.  If they have the same dump, they are the same but for the lines of their tokens. -/
theorem dump_determines_tree {source source' : String} {s t : Stmt}
    (hs : s ∈ (parse (scan source).tokens).statements)
    (ht : t ∈ (parse (scan source').tokens).statements)
    (hplain : ∀ v, .literal v ∈ s.nodes → v.Plain) (hplain' : ∀ v, .literal v ∈ t.nodes → v.Plain)
    (hdump : s.dump = t.dump) : s.relabel Token.unlined = t.relabel Token.unlined := by
  obtain ⟨hlegible, hread⟩ :=
    s.form_spec (shaped_of_mem_parse hs) (wellFormed_of_mem_tokens hs) hplain
  obtain ⟨hlegible', hread'⟩ :=
    t.form_spec (shaped_of_mem_parse ht) (wellFormed_of_mem_tokens ht) hplain'
  have htext : s.form.text = t.form.text := by rw [s.text_form, t.text_form, hdump]
  have hform : s.form = t.form := Form.eq_of_text_eq hlegible hlegible' htext
  rw [hform, hread'] at hread
  exact (Option.some.inj hread).symm

/-- Both sorts of minus signs, a variable that is named like a head, and a number that is written in
two ways. -/
theorem dump_determines_tree_two_minus_signs :
    let x := Number.ofChars ['1', '.', '5']
    let tree (line line' : Int32) : Stmt := .expr (.binary
      (.unary ⟨.symbol .minus, "-", line⟩ (.name (.identifier "group" line)))
      ⟨.symbol .minus, "-", line'⟩ (.literal (.number x)))
    (parse (scan "-group - 1.50;").tokens).statements = [tree 1 1] ∧
      (parse (scan "\n-group\n-1.5;").tokens).statements = [tree 2 3] ∧
      (∀ v, .literal v ∈ (tree 1 1).nodes → v.Plain) ∧
      (∀ v, .literal v ∈ (tree 2 3).nodes → v.Plain) ∧
      (tree 1 1).dump = "(; (- (- group) 1.5))" ∧ (tree 2 3).dump = "(; (- (- group) 1.5))" ∧
      (tree 1 1).relabel Token.unlined = (tree 2 3).relabel Token.unlined := by
  intro x tree
  have htokens : (scan "-group - 1.50;").tokens = [⟨.symbol .minus, "-", 1⟩,
      .identifier "group" 1, ⟨.symbol .minus, "-", 1⟩, ⟨.number x, "1.50", 1⟩,
      ⟨.symbol .semicolon, ";", 1⟩, ⟨.eof, "", 1⟩] := by decide +kernel
  have htokens' : (scan "\n-group\n-1.5;").tokens = [⟨.symbol .minus, "-", 2⟩,
      .identifier "group" 2, ⟨.symbol .minus, "-", 3⟩, ⟨.number x, "1.5", 3⟩,
      ⟨.symbol .semicolon, ";", 3⟩, ⟨.eof, "", 3⟩] := by decide +kernel
  have hstatements : (parse (scan "-group - 1.50;").tokens).statements = [tree 1 1] := by
    rw [htokens]
    rfl
  have hstatements' : (parse (scan "\n-group\n-1.5;").tokens).statements = [tree 2 3] := by
    rw [htokens']
    rfl
  have hplain : ∀ line line' v, .literal v ∈ (tree line line').nodes → v.Plain := by
    intro line line' v hv
    simp only [tree, Stmt.nodes, Expr.nodes, List.mem_cons, List.mem_append, List.not_mem_nil,
      reduceCtorEq, false_or, or_false, Expr.literal.injEq] at hv
    subst hv
    show x.isFinite = true
    decide +kernel
  have hdump : (tree 1 1).dump = "(; (- (- group) 1.5))" := by decide +kernel
  have hdump' : (tree 2 3).dump = "(; (- (- group) 1.5))" := by decide +kernel
  refine ⟨hstatements, hstatements', hplain 1 1, hplain 2 3, hdump, hdump', ?_⟩
  exact dump_determines_tree (hstatements ▸ List.mem_singleton_self _)
    (hstatements' ▸ List.mem_singleton_self _) (hplain 1 1) (hplain 2 3) (hdump.trans hdump'.symm)

end Lox
