import Lox.Proofs.Lexicon.Rendering
import Lox.Proofs.Parser.Exactness
import Lox.Proofs.Session.Runs

/-!
# Printing joined texts

A chain is written as texts in quotes with plus signs between them, and any part of it may stand in
parentheses.  Printing a chain writes its texts one after the other and the end of a line, whatever
is in the texts and however the chain is parenthesised (`Session.chain_is_printed_in_full`).

The proof follows a chain through the three stages of a run.

* `Chain.gives`: the characters of a chain are scanned as its tokens, since a text that holds no
  quote ends at the next one.
* `Chain.derives`: tokens of these kinds, on whatever lines, have a derivation in the grammar, and
  the value of its tree is the joined text.  A chain in parentheses is a grouping, and joining texts
  is associative, so that the groupings do not matter.
* `Session.prints_of_eval`: a new session that reads a `print` of an expression with this value
  writes the text.
-/

namespace Lox

/-! ### Chains -/

mutual

/-- An operand of a chain: a text in quotes, or a chain in parentheses. -/
inductive Operand where
  | quoted (text : String)
  | parens (inner : Chain)

/-- Operands with plus signs between them, which join them from left to right. -/
inductive Chain where
  | one (first : Operand)
  | plus (front : Chain) (last : Operand)

end

/-- A text in quotes. -/
def quote (text : String) : String := "\"" ++ text ++ "\""

mutual

/-- The texts of an operand, from left to right. -/
def Operand.texts : Operand → List String
  | .quoted text => [text]
  | .parens inner => inner.texts

def Chain.texts : Chain → List String
  | .one first => first.texts
  | .plus front last => front.texts ++ last.texts

end

mutual

/-- An operand as it is written. -/
def Operand.source : Operand → String
  | .quoted text => quote text
  | .parens inner => "(" ++ inner.source ++ ")"

def Chain.source : Chain → String
  | .one first => first.source
  | .plus front last => front.source ++ " + " ++ last.source

end

mutual

/-- The tokens of an operand, all on the first line. -/
def Operand.tokens : Operand → List Token
  | .quoted text => [⟨.string text, quote text, 1⟩]
  | .parens inner =>
    ⟨.symbol .leftParen, "(", 1⟩ :: (inner.tokens ++ [⟨.symbol .rightParen, ")", 1⟩])

def Chain.tokens : Chain → List Token
  | .one first => first.tokens
  | .plus front last => front.tokens ++ ⟨.symbol .plus, "+", 1⟩ :: last.tokens

end

/-- A statement that prints what is written. -/
def printing (source : String) : String := "print " ++ source ++ ";"

/-- The chain with more texts at its end, none of them in parentheses. -/
def Chain.extend (c : Chain) : List String → Chain
  | [] => c
  | text :: texts => (c.plus (.quoted text)).extend texts

@[simp]
theorem Chain.texts_extend (c : Chain) (texts : List String) :
    (c.extend texts).texts = c.texts ++ texts := by
  induction texts generalizing c with
  | nil => rw [Chain.extend, List.append_nil]
  | cons text texts ih =>
    rw [Chain.extend, ih, Chain.texts, Operand.texts, List.append_assoc, List.singleton_append]

theorem Chain.source_extend (c : Chain) (texts : List String) :
    (c.extend texts).source = " + ".intercalate (c.source :: texts.map quote) := by
  induction texts generalizing c with
  | nil => rw [Chain.extend, List.map_nil, String.intercalate_singleton]
  | cons text texts ih =>
    rw [Chain.extend, ih, Chain.source, Operand.source, List.map_cons,
      String.intercalate_cons_cons]
    cases texts with
    | nil => rw [List.map_nil, String.intercalate_singleton, String.intercalate_singleton]
    | cons next texts =>
      rw [List.map_cons, String.intercalate_cons_cons, String.intercalate_cons_cons]
      simp only [String.append_assoc]

theorem exists_chain {texts : List String} (hne : texts ≠ []) : ∃ c : Chain, c.texts = texts ∧
    c.source = " + ".intercalate (texts.map quote) := by
  obtain ⟨text, texts, rfl⟩ := List.exists_cons_of_ne_nil hne
  refine ⟨(Chain.one (.quoted text)).extend texts, ?_, ?_⟩
  · rw [Chain.texts_extend, Chain.texts, Operand.texts, List.singleton_append]
  · rw [Chain.source_extend, Chain.source, Operand.source, List.map_cons]

/-! ### Scanning -/

@[simp]
theorem toList_quote (text : String) : (quote text).toList = '"' :: (text.toList ++ ['"']) := by
  have hquote : "\"".toList = ['"'] := rfl
  rw [quote, String.toList_append, String.toList_append, hquote, List.singleton_append,
    List.cons_append]

/-- A text in quotes is one token, whatever it holds but a quote and whatever follows it. -/
theorem gives_quote {text : String} (htext : '"' ∉ text.toList) {rest : List Char} {ts : List Token}
    (h : Lexicon.Gives (Piece.split rest) ts) :
    Lexicon.Gives (Piece.split ((quote text).toList ++ rest))
      (⟨.string text, quote text, 1⟩ :: ts) := by
  have hstring := h.unit 1 (.string htext)
  rwa [String.ofList_toList, ← toList_quote, String.ofList_toList] at hstring

mutual

theorem Operand.gives (o : Operand) (hquotes : ∀ s ∈ o.texts, '"' ∉ s.toList) {rest : List Char}
    {ts : List Token} (h : Lexicon.Gives (Piece.split rest) ts) :
    Lexicon.Gives (Piece.split (o.source.toList ++ rest)) (o.tokens ++ ts) := by
  cases o with
  | quoted text => exact gives_quote (hquotes text (List.mem_singleton_self text)) h
  | parens inner =>
    have hclose := h.unit 1
      (Lexicon.regular_symbol .rightParen (by intro t; cases t <;> decide) nofun rest)
    have hinner := inner.gives hquotes hclose
    have hopen := hinner.unit 1
      (Lexicon.regular_symbol .leftParen (by intro t; cases t <;> decide) nofun _)
    have hl : "(".toList = Symbol.leftParen.spelling := rfl
    have hr : ")".toList = Symbol.rightParen.spelling := rfl
    rw [Operand.source, Operand.tokens, String.toList_append, String.toList_append, hl, hr,
      List.append_assoc, List.append_assoc, List.cons_append, List.append_assoc,
      List.singleton_append]
    exact hopen

theorem Chain.gives (c : Chain) (hquotes : ∀ s ∈ c.texts, '"' ∉ s.toList) {rest : List Char}
    {ts : List Token} (h : Lexicon.Gives (Piece.split rest) ts) :
    Lexicon.Gives (Piece.split (c.source.toList ++ rest)) (c.tokens ++ ts) := by
  cases c with
  | one first => exact first.gives hquotes h
  | plus front last =>
    rw [Chain.texts, List.forall_mem_append] at hquotes
    have hlast := last.gives hquotes.2 h
    have hplus := hlast.token (.symbol .plus 1) Lexicon.separator_space
    have hblank := hplus.nothing (.blank (c := ' ') (by simp))
    have hfront := front.gives hquotes.1 hblank
    have hjoin : " + ".toList = [' '] ++ (Symbol.plus.spelling ++ [' ']) := rfl
    rw [Chain.source, Chain.tokens, String.toList_append, String.toList_append, hjoin,
      List.append_assoc, List.append_assoc, List.append_assoc, List.append_assoc,
      List.append_assoc, List.cons_append]
    exact hfront

end

theorem Chain.gives_printing (c : Chain) (hquotes : ∀ s ∈ c.texts, '"' ∉ s.toList) :
    Lexicon.Gives (Piece.split (printing c.source).toList)
      (⟨.keyword .printKw, "print", 1⟩ :: (c.tokens ++ [⟨.symbol .semicolon, ";", 1⟩])) := by
  have hchain := c.gives hquotes Lexicon.gives_semicolon
  have hprint := hchain.token (.keyword .printKw 1) Lexicon.separator_space
  have hwords : "print ".toList = Keyword.printKw.spelling ++ [' '] := rfl
  rw [printing, String.toList_append, String.toList_append, hwords, List.append_assoc,
    List.append_assoc]
  exact hprint

/-! ### Deriving -/

open Grammar

/-- The tokens have a derivation whose tree has the text as its value and changes no variables. -/
def Derives (r : Rank) (ts : List Token) (text : String) : Prop :=
  ∃ e : Expression r, e.tokens = ts ∧ e.Proper ∧
    ∀ scopes, Stack.eval e.tree scopes = .ok (.string text) scopes

namespace Derives

variable {ts us : List Token} {text text' : String} {t op lparen rparen : Token}

theorem quoted (ht : t.kind = .string text) : Derives .primary [t] text :=
  ⟨.literal t (.string text) (ht ▸ .string text), rfl, trivial, fun _ => rfl⟩

theorem operand {l : Level} (h : Derives (tighter l) ts text) : Derives (.level l) ts text := by
  obtain ⟨e, htokens, hproper, heval⟩ := h
  exact ⟨.operand e, htokens, hproper, heval⟩

theorem factor (h : Derives .primary ts text) : Derives (tighter .term) ts text := by
  obtain ⟨e, htokens, hproper, heval⟩ := h
  have hunary : Derives (tighter .factor) ts text := ⟨.primary e, htokens, hproper, heval⟩
  exact hunary.operand

theorem assignment (h : Derives (.level .term) ts text) : Derives .assignment ts text := by
  have hcomparison : Derives (tighter .equality) ts text := operand (l := .comparison) h
  have hequality : Derives (tighter .and) ts text := hcomparison.operand
  have hand : Derives (tighter .or) ts text := hequality.operand
  obtain ⟨e, htokens, hproper, heval⟩ := hand.operand
  exact ⟨.plain e, htokens, hproper, heval⟩

theorem grouping (hl : lparen.kind = .symbol .leftParen) (h : Derives (.level .term) ts text)
    (hr : rparen.kind = .symbol .rightParen) :
    Derives .primary (lparen :: (ts ++ [rparen])) text := by
  obtain ⟨e, htokens, hproper, heval⟩ := h.assignment
  refine ⟨.grouping ⟨lparen, hl⟩ e ⟨rparen, hr⟩, ?_, hproper, heval⟩
  rw [Expression.tokens, htokens, List.cons_append]

theorem plus (h : Derives (.level .term) ts text) (hop : op.kind = .symbol .plus)
    (h' : Derives .primary us text') :
    Derives (.level .term) (ts ++ op :: us) (text ++ text') := by
  obtain ⟨e, htokens, hproper, heval⟩ := h
  obtain ⟨e', htokens', hproper', heval'⟩ := h'.factor
  have hmem : op.kind ∈ operators .term := by simp [hop, operators]
  have hjoin : Operator.binary op (.string text) (.string text') =
      .ok (.string (text ++ text')) := by
    rw [Operator.binary, hop]
    rfl
  refine ⟨.operation (l := .term) e ⟨op, hmem⟩ e', ?_, ⟨hproper, hproper'⟩, fun scopes => ?_⟩
  · rw [Expression.tokens, htokens, htokens']
  · show Stack.eval (.binary e.tree op e'.tree) scopes = _
    rw [Stack.eval, bind_of_ok _ (heval scopes), bind_of_ok _ (heval' scopes), hjoin]
    rfl

end Derives

mutual

theorem Operand.derives (o : Operand) {ts : List Token}
    (h : ts.map Token.kind = o.tokens.map Token.kind) :
    Derives .primary ts (String.join o.texts) := by
  cases o with
  | quoted text =>
    obtain ⟨t, rfl, ht⟩ := List.map_eq_singleton_iff.mp h
    rw [Operand.texts, String.join_cons, String.join_nil, String.append_empty]
    exact .quoted ht
  | parens inner =>
    rw [Operand.tokens, List.map_cons, List.map_append] at h
    obtain ⟨lparen, more, rfl, hl, hmore⟩ := List.map_eq_cons_iff.mp h
    obtain ⟨body, close, rfl, hbody, hclose⟩ := List.map_eq_append_iff.mp hmore
    obtain ⟨rparen, rfl, hr⟩ := List.map_eq_singleton_iff.mp hclose
    rw [Operand.texts]
    exact .grouping hl (inner.derives hbody) hr

/-- **Tokens of the kinds of a chain's tokens derive its joined text,** on whatever lines they
are. -/
theorem Chain.derives (c : Chain) {ts : List Token}
    (h : ts.map Token.kind = c.tokens.map Token.kind) :
    Derives (.level .term) ts (String.join c.texts) := by
  cases c with
  | one first => exact (first.derives h).factor.operand
  | plus front last =>
    rw [Chain.tokens, List.map_append, List.map_cons] at h
    obtain ⟨before, more, rfl, hbefore, hmore⟩ := List.map_eq_append_iff.mp h
    obtain ⟨op, after, rfl, hop, hafter⟩ := List.map_eq_cons_iff.mp hmore
    rw [Chain.texts, String.join_append]
    exact .plus (front.derives hbefore) hop (last.derives hafter)

end

/-- **A statement that prints a chain is read as one that prints the joined text.** -/
theorem Chain.readable_printing (c : Chain) (hquotes : ∀ s ∈ c.texts, '"' ∉ s.toList) :
    Session.Readable (printing c.source) ∧ ∃ e : Expr,
      Session.statements (printing c.source) = [.print e] ∧
        ∀ scopes, Stack.eval e scopes = .ok (.string (String.join c.texts)) scopes := by
  have hgives := c.gives_printing hquotes
  have hkinds : (Program.body (scan (printing c.source)).tokens).map Token.kind =
      .keyword .printKw :: (c.tokens.map Token.kind ++ [.symbol .semicolon]) := by
    have hcontents := (Lexicon.map_content_words _ 1).trans hgives.contents
    have hfst := congrArg (List.map Prod.fst) hcontents
    rw [List.map_map, List.map_map] at hfst
    rw [Scan.body_scan]
    refine hfst.trans ?_
    rw [List.map_cons, List.map_append]
    rfl
  obtain ⟨printKw, more, hbody, hprint, hmore⟩ := List.map_eq_cons_iff.mp hkinds
  obtain ⟨middle, last, rfl, hmiddle, hlast⟩ := List.map_eq_append_iff.mp hmore
  obtain ⟨semicolon, rfl, hsemicolon⟩ := List.map_eq_singleton_iff.mp hlast
  obtain ⟨e, htokens, hproper, heval⟩ := (c.derives hmiddle).assignment
  let d : Declaration := .statement (.print ⟨printKw, hprint⟩ e ⟨semicolon, hsemicolon⟩)
  have hproperd : Declaration.AllProper [d] := ⟨hproper, trivial⟩
  have htokensd : Declaration.tokensOf [d] = Program.body (scan (printing c.source)).tokens := by
    rw [hbody, Declaration.tokensOf, Declaration.tokensOf, List.append_nil, Declaration.tokens,
      Statement.tokens, htokens]
  obtain ⟨herrors, hstatements⟩ := parse_of_derivation hproperd ⟨trivial, trivial⟩ htokensd
  exact ⟨⟨hgives.scan.1, herrors⟩, e.tree, hstatements, heval⟩

namespace Session

/-! ### Printing -/

/-- A new session over the sink that dumps no trees reads the source text without errors, runs it to
its end under every bound, sets no flag, and writes the text, the end of its line and nothing else.
-/
structure Prints (sink : Sink) (source text : String) : Prop where
  readable : Readable source
  exists_run : ∀ bound, ∃ s, run bound source (start sink false) = .ok () s ∧
    s.hadError = false ∧ s.hadRuntimeError = false ∧
    s.machine.sink.held = sink.held ++ (text ++ "\n").toUTF8

theorem interpret_print {e : Expr} {text : String} {t : Stack} (ht : t.sink.Reliable)
    (heval : Stack.eval e t.scopes = .ok (.string text) t.scopes) (bound : Nat) :
    ∃ t', Stack.interpret bound [.print e] t = .ok () t' ∧
      t'.sink.held = t.sink.held ++ (text ++ "\n").toUTF8 := by
  have hvalue : Stack.onScopes (Stack.eval e) t = .ok (.string text) t := by
    rw [Stack.onScopes, heval]
  have hline : Stack.writeLine text t = .ok () (written t text) := by
    rw [Stack.writeLine, Stack.onSink, ht.write_eq]
    rfl
  have hprint : Stack.exec bound (.print e) t = .ok () (written t text) := by
    rw [Stack.exec, bind_of_ok _ hvalue]
    exact hline
  have heach : Stack.execEach bound [.print e] t = .ok () (written t text) := by
    rw [Stack.execEach, bind_of_ok _ hprint]
    rfl
  have hreliable : (written t text).sink.Reliable := ⟨ht.limit_eq, ht.failFlush_eq⟩
  rw [Stack.interpret, bind_of_ok _ heach, Stack.onSink, hreliable.flush_eq]
  exact ⟨_, rfl, rfl⟩

/-- A new session that reads a statement which prints a text writes that text. -/
theorem prints_of_eval {sink : Sink} (hsink : sink.Reliable) {source text : String} {e : Expr}
    (hsource : Readable source) (hstatements : statements source = [.print e])
    (heval : ∀ scopes, Stack.eval e scopes = .ok (.string text) scopes) :
    Prints sink source text := by
  have hready : (start sink false).Ready :=
    ⟨rfl, rfl, hsink, 0, ⟨{}, none, 1⟩, rfl, rfl, Nat.le_refl 1⟩
  refine ⟨hsource, fun bound => ?_⟩
  obtain ⟨t, hinterpret, hheld⟩ :=
    interpret_print (t := (start sink false).view) hsink (heval _) bound
  rw [← hstatements] at hinterpret
  obtain ⟨s, hrun, hleaves⟩ := run_of_ok hsource hready hinterpret
  refine ⟨s, hrun, hleaves.hadError_eq, hleaves.hadRuntimeError_eq, ?_⟩
  have hsinks : s.machine.sink = t.sink := congrArg Stack.sink hleaves.view_eq
  rw [hsinks, hheld]
  rfl

/-- **Texts are printed in full, however they are joined.**  Let a list of texts, not empty, hold no
quotes; anything else may be in them, line feeds and the marks of comments included.  Printing the
texts in quotes with plus signs between them, in a new session over a sink that takes everything,
gives no errors and writes the texts one after the other and then the end of a line.  So does
printing any chain of the same texts, with whatever parts of it in parentheses. -/
theorem chain_is_printed_in_full {texts : List String} (hne : texts ≠ [])
    (hquotes : ∀ s ∈ texts, '"' ∉ s.toList) {sink : Sink} (hsink : sink.Reliable) :
    Prints sink (printing (" + ".intercalate (texts.map quote))) (String.join texts) ∧
      ∀ c : Chain, c.texts = texts → Prints sink (printing c.source) (String.join texts) := by
  have hchains : ∀ c : Chain, c.texts = texts →
      Prints sink (printing c.source) (String.join texts) := by
    rintro c rfl
    obtain ⟨hreadable, e, hstatements, heval⟩ := c.readable_printing hquotes
    exact prints_of_eval hsink hreadable hstatements heval
  refine ⟨?_, hchains⟩
  obtain ⟨c, htexts, hsource⟩ := exists_chain hne
  rw [← hsource]
  exact hchains c htexts

/-- The texts hold a line feed, what would begin and end comments outside of quotes, and a character
of two bytes; one of them is empty. -/
theorem chain_is_printed_in_full_comment_marks :
    let texts := ["/*\n", "é//", "", "*/"]
    let sink : Sink := { held := "> ".toUTF8 }
    let c : Chain := .plus (.one (.quoted "/*\n")) (.parens (.plus
      (.one (.parens (.plus (.one (.quoted "é//")) (.quoted "")))) (.quoted "*/")))
    texts ≠ [] ∧ (∀ s ∈ texts, '"' ∉ s.toList) ∧ sink.Reliable ∧ c.texts = texts ∧
      Prints sink "print \"/*\n\" + \"é//\" + \"\" + \"*/\";" "/*\né//*/" ∧
      Prints sink "print \"/*\n\" + ((\"é//\" + \"\") + \"*/\");" "/*\né//*/" := by
  intro texts sink c
  have hne : texts ≠ [] := nofun
  have hquotes : ∀ s ∈ texts, '"' ∉ s.toList := by decide
  have hsink : sink.Reliable := ⟨rfl, rfl⟩
  have htexts : c.texts = texts := rfl
  obtain ⟨hflat, hchains⟩ := chain_is_printed_in_full hne hquotes hsink
  exact ⟨hne, hquotes, hsink, htexts, hflat, hchains c htexts⟩

end Session

end Lox
