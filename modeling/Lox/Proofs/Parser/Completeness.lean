import Lox.Program
import Lox.Proofs.Grammar.Basic

/-!
# What has a derivation is read

A parser reads the tokens of a derivation as its tree, and logs its faults, provided that what
follows cannot extend the derivation and that the bound allows for all the tokens.

After an expression of a level nothing extends it but an operator of that level or a tighter one;
after an assignment, nothing but an operator or `=`; after a statement that ends open, nothing but
`else`. The chain of operators of a level is derived from its last operator and read from its first,
so the induction there carries what the loop still has to read.
-/

namespace Lox

open Grammar

/-- How tightly the operators of a level bind. -/
def Level.tightness : Level → Nat
  | or => 0
  | and => 1
  | equality => 2
  | comparison => 3
  | term => 4
  | factor => 5

namespace Parser

/-! ### What cannot extend an expression -/

/-- The tokens do not begin with one that extends an expression of the rank. -/
def Ends : Rank → List Token → Prop
  | .assignment, rest => ∀ t ∈ rest.head?, t.kind ≠ .symbol .equal ∧ Level.of? t.kind = none
  | .level l, rest =>
    ∀ t ∈ rest.head?, ∀ l', Level.of? t.kind = some l' → l'.tightness < l.tightness
  | .unary, _ => True
  | .primary, _ => True

theorem Ends.tighter {l : Level} {rest : List Token} (h : Ends (.level l) rest) :
    Ends (Grammar.tighter l) rest := by
  have hlt : ∀ l₂ : Level, l₂.tightness = l.tightness + 1 → Ends (.level l₂) rest := by
    intro l₂ hl t ht l' hl'
    have := h t ht l' hl'
    omega
  cases l with
  | factor => trivial
  | _ => exact hlt _ rfl

theorem Ends.level_or {rest : List Token} (h : Ends .assignment rest) : Ends (.level .or) rest := by
  intro t ht l' hl'
  rw [(h t ht).2] at hl'
  cases hl'

/-- An operator of a level ends its operands. -/
theorem ends_operator {l : Level} {t : Token} (h : Level.of? t.kind = some l) (rest : List Token) :
    Ends (Grammar.tighter l) (t :: rest) := by
  have hlt : ∀ l₂ : Level, l₂.tightness = l.tightness + 1 → Ends (.level l₂) (t :: rest) := by
    intro l₂ hl t' ht' l' hl'
    obtain rfl : t = t' := by simpa using ht'
    rw [h] at hl'
    cases hl'
    omega
  cases l with
  | factor => trivial
  | _ => exact hlt _ rfl

theorem ends_equal {t : Token} (h : t.kind = .symbol .equal) (rest : List Token) :
    Ends (.level .or) (t :: rest) := by
  intro t' ht' l' hl'
  obtain rfl : t = t' := by simpa using ht'
  rw [h] at hl'
  cases hl'

/-- A token that is neither an operator nor `=` ends an expression. -/
theorem ends_token {t : Token} {k : Kind} (h : t.kind = k) (hk : k ≠ .symbol .equal)
    (hl : Level.of? k = none) (rest : List Token) : Ends .assignment (t :: rest) := by
  intro t' ht'
  obtain rfl : t = t' := by simpa using ht'
  rw [h]
  exact ⟨hk, hl⟩

theorem ends_semicolon (t : Terminal (.symbol .semicolon)) (rest : List Token) :
    Ends .assignment (t.1 :: rest) :=
  ends_token t.2 (by decide) rfl rest

theorem ends_rightParen (t : Terminal (.symbol .rightParen)) (rest : List Token) :
    Ends .assignment (t.1 :: rest) :=
  ends_token t.2 (by decide) rfl rest

/-! ### Expressions -/

/-- The parser reads every expression of the rank, of up to `n` tokens together with what follows.
-/
def Completes (n : Nat) (r : Rank) (p : Parser Expr) : Prop :=
  ∀ (e : Expression r) (rest : List Token), (e.tokens ++ rest).length ≤ n → Ends r rest →
    Takes p e.tokens e.tree e.faults rest

theorem length_tokens_pos {r : Rank} (e : Expression r) : 0 < e.tokens.length := by
  obtain ⟨t, ts, ht, _⟩ := e.exists_first
  rw [ht]
  exact Nat.succ_pos _

theorem completes_primary {n : Nat} {expression : Parser Expr}
    (h : Completes n .assignment expression) : Completes (n + 1) .primary (primary expression) := by
  intro e rest hlen _
  cases e with
  | literal t v hv =>
    show primary expression (t :: rest) = ⟨.ok (.literal v), rest, []⟩
    rw [primary]
    cases hk : t.kind <;> rw [hk] at hv <;> cases hv <;> rfl
  | name t =>
    obtain ⟨t, n, hn⟩ := t
    show primary expression (t :: rest) = ⟨.ok (.name t), rest, []⟩
    rw [primary, hn]
  | grouping lparen inner rparen =>
    have hinner : Takes expression inner.tokens inner.tree inner.faults (rparen.1 :: rest) := by
      refine h inner _ ?_ (ends_rightParen rparen rest)
      simp only [Expression.tokens, List.length_append, List.length_cons, List.length_nil] at hlen ⊢
      omega
    have htail : Takes (do
        let e ← expression
        expect (.symbol .rightParen) .parenAfterExpression
        return .grouping e : Parser Expr) (inner.tokens ++ [rparen.1]) (.grouping inner.tree)
        (inner.faults ++ []) rest :=
      hinner.bind (Takes.expect_bind rparen.2 (takes_pure _ rest))
    rw [List.append_nil] at htail
    show primary expression (lparen.1 :: (inner.tokens ++ [rparen.1] ++ rest)) = _
    rw [primary, lparen.2]
    exact htail

/-- A primary expression does not begin with a prefix operator. -/
theorem unary_eq_primary (expression : Parser Expr) (e : Expression .primary) (rest : List Token) :
    unary expression (e.tokens ++ rest) = primary expression (e.tokens ++ rest) := by
  have hne : ∃ t ts, e.tokens = t :: ts ∧ isUnary t.kind = false := by
    cases e with
    | literal t v hv =>
      refine ⟨t, [], rfl, ?_⟩
      generalize t.kind = k at hv
      cases hv <;> rfl
    | name t =>
      obtain ⟨t, n, hn⟩ := t
      exact ⟨t, [], rfl, by rw [hn]; rfl⟩
    | grouping lparen inner rparen => exact ⟨lparen.1, _, rfl, by rw [lparen.2]; rfl⟩
  obtain ⟨t, ts, ht, hu⟩ := hne
  rw [ht, List.cons_append, unary, if_neg (by rw [hu]; decide)]

theorem completes_unary {n : Nat} {expression : Parser Expr}
    (h : Completes n .assignment expression) : Completes (n + 1) .unary (unary expression)
  | .primary e, rest, hlen, _ => by
    have he := completes_primary h e rest hlen trivial
    exact (unary_eq_primary expression e rest).trans he
  | .unary op right, rest, hlen, _ => by
    have hright : unary expression (right.tokens ++ rest) = _ := completes_unary h right rest (by
      simp only [Expression.tokens, List.length_append, List.length_cons] at hlen ⊢
      omega) trivial
    show unary expression (op.1 :: (right.tokens ++ rest)) = _
    rw [unary, if_pos (mem_prefixes_iff.mp op.2), hright]
    rfl

/-- **Reading an expression of a level comes down to reading the operators after it.** -/
theorem leveled_eq_operators {bound : Nat} {l : Level} {operand : Parser Expr}
    (h : Completes (bound + 1) (Grammar.tighter l) operand) :
    ∀ (e : Expression (.level l)) (rest : List Token), (e.tokens ++ rest).length ≤ bound + 1 →
      Ends (Grammar.tighter l) rest → ∃ left, rest.length ≤ left ∧
        leveled bound l operand (e.tokens ++ rest) =
          Reply.after e.faults (operators l operand left e.tree rest)
  | .operand e, rest, hlen, hends => by
    refine ⟨bound, ?_, bind_eq_after _ (h e rest hlen hends)⟩
    have := length_tokens_pos e
    simp only [Expression.tokens, List.length_append] at hlen
    omega
  | .operation left op right, rest, hlen, hends => by
    have hl := mem_operators_iff.mp op.2
    have hlen' : (left.tokens ++ op.1 :: (right.tokens ++ rest)).length ≤ bound + 1 := by
      simpa [Expression.tokens] using hlen
    obtain ⟨b, hb, heq⟩ := leveled_eq_operators h left _ hlen' (ends_operator hl _)
    -- The loop has read `left` and stands before the operator.
    obtain ⟨b, rfl⟩ : ∃ b', b = b' + 1 := Nat.exists_eq_succ_of_ne_zero (by
      simp only [List.length_cons] at hb
      omega)
    refine ⟨b, by simp only [List.length_cons, List.length_append] at hb; omega, ?_⟩
    have hright : Takes operand right.tokens right.tree right.faults rest := by
      refine h right rest ?_ hends
      simp only [List.length_cons, List.length_append] at hlen' ⊢
      omega
    rw [Expression.tokens, List.append_assoc, List.cons_append, heq, operators, if_pos hl,
      bind_eq_after _ hright, Expression.tree_operation]
    simp [Reply.after, Expression.faults]

theorem operators_of_ends {l : Level} (operand : Parser Expr) (bound : Nat) (left : Expr)
    {rest : List Token} (h : Ends (.level l) rest) :
    operators l operand bound left rest = ⟨.ok left, rest, []⟩ := by
  cases bound with
  | zero => rfl
  | succ bound =>
    cases rest with
    | nil => rfl
    | cons t rest =>
      rw [operators, if_neg]
      intro hl
      exact absurd (h t rfl l hl) (Nat.lt_irrefl _)

theorem completes_leveled {bound : Nat} {l : Level} {operand : Parser Expr}
    (h : Completes (bound + 1) (Grammar.tighter l) operand) :
    Completes (bound + 1) (.level l) (leveled bound l operand) := by
  intro e rest hlen hends
  obtain ⟨b, _, heq⟩ := leveled_eq_operators h e rest hlen hends.tighter
  show leveled bound l operand (e.tokens ++ rest) = _
  rw [heq, operators_of_ends operand b e.tree hends]
  simp [Reply.after]

theorem completes_disjunction {bound : Nat} {expression : Parser Expr}
    (h : Completes bound .assignment expression) :
    Completes (bound + 1) (.level .or) (disjunction bound expression) :=
  completes_leveled (l := .or) <| completes_leveled (l := .and) <|
    completes_leveled (l := .equality) <| completes_leveled (l := .comparison) <|
    completes_leveled (l := .term) <| completes_leveled (l := .factor) <| completes_unary h

theorem takes_assignment (left : Expression (.level .or)) (equals : Terminal (.symbol .equal))
    (value : Expression .assignment) (rest : List Token) :
    Takes (assignment left.tree equals.1 value.tree) [] (Expression.assign left equals value).tree
      (match left.name? with
        | some _ => []
        | none => [⟨.assignmentTarget, some equals.1⟩]) rest := by
  cases hn : left.name? with
  | some t =>
    rw [left.tree_of_name? hn]
    simp only [Expression.tree, hn]
    exact takes_pure _ rest
  | none =>
    simp only [Expression.tree, hn]
    have hne : ∀ t, left.tree ≠ .name t := by
      intro t ht
      rw [left.name?_of_tree ht] at hn
      cases hn
    unfold assignment
    split
    · next t ht => exact absurd ht (hne t)
    · rfl

/-- **An expression that has a derivation is read.** -/
theorem completes_expression (bound : Nat) : Completes bound .assignment (expression bound) := by
  induction bound with
  | zero =>
    intro e rest hlen _
    have := length_tokens_pos e
    simp only [List.length_append] at hlen
    omega
  | succ bound ih =>
    intro e rest hlen hends
    cases e with
    | plain e =>
      have he := completes_disjunction ih e rest hlen hends.level_or
      show expression (bound + 1) (e.tokens ++ rest) = _
      rw [expression, bind_eq_after _ he]
      cases rest with
      | nil => simp [assigned, Reply.after, Expression.tree, Expression.faults]
      | cons t rest =>
        rw [assigned, if_neg (hends t rfl).1]
        simp [Reply.after, Expression.tree, Expression.faults]
    | assign left equals value =>
      have hlen' : (left.tokens ++ equals.1 :: (value.tokens ++ rest)).length ≤ bound + 1 := by
        simpa [Expression.tokens] using hlen
      have hleft := completes_disjunction ih left _ hlen' (ends_equal equals.2 _)
      have hvalue : Takes (expression bound) value.tokens value.tree value.faults rest := by
        refine ih value rest ?_ hends
        have := length_tokens_pos left
        simp only [List.length_cons, List.length_append] at hlen' ⊢
        omega
      have hassign := takes_assignment left equals value rest
      show expression (bound + 1) (left.tokens ++ equals.1 :: value.tokens ++ rest) = _
      rw [List.append_assoc, List.cons_append, expression, bind_eq_after _ hleft, assigned,
        if_pos equals.2, bind_eq_after _ hvalue]
      rw [Takes, List.nil_append] at hassign
      rw [hassign]
      rfl

/-! ### Declarations -/

section Declarations

variable {n : Nat} {expression : Parser Expr} {statement : Parser Stmt}

theorem takes_initialValue (hE : Completes n .assignment expression)
    (i : Option (Terminal (.symbol .equal) × Expression .assignment))
    (semicolon : Terminal (.symbol .semicolon)) (rest : List Token)
    (hlen : (Variable.tokens.initialTokens i ++ semicolon.1 :: rest).length ≤ n) :
    Takes (varDeclaration.initialValue expression) (Variable.tokens.initialTokens i)
      (i.map fun p => p.2.tree) (optionalFaults (i.map Prod.snd)) (semicolon.1 :: rest) := by
  cases i with
  | none =>
    show varDeclaration.initialValue expression (semicolon.1 :: rest) = _
    rw [varDeclaration.initialValue, if_neg (by rw [semicolon.2]; decide)]
    rfl
  | some p =>
    obtain ⟨equals, e⟩ := p
    have he : expression (e.tokens ++ semicolon.1 :: rest) = _ :=
      hE e _ (Nat.le_of_succ_le hlen) (ends_semicolon semicolon rest)
    show varDeclaration.initialValue expression (equals.1 :: (e.tokens ++ semicolon.1 :: rest)) = _
    rw [varDeclaration.initialValue, if_pos equals.2, he]
    rfl

theorem takes_varDeclaration (hE : Completes n .assignment expression) (v : Variable)
    (rest : List Token) (hlen : (v.tokens ++ rest).length ≤ n + 1) :
    Takes (varDeclaration expression)
      (v.name.1 :: (Variable.tokens.initialTokens v.initial ++ [v.semicolon.1])) v.tree v.faults
      rest := by
  obtain ⟨varKw, ⟨t, name, hname⟩, i, semicolon⟩ := v
  have hi := takes_initialValue hE i semicolon rest (by
    simp only [Variable.tokens, List.length_append, List.length_cons, List.length_nil] at hlen ⊢
    omega)
  have htail : Takes (do
      let i ← varDeclaration.initialValue expression
      expect (.symbol .semicolon) .semicolonAfterDeclaration
      return .declare t i : Parser Stmt) (Variable.tokens.initialTokens i ++ [semicolon.1])
      (.declare t (i.map fun p => p.2.tree)) (optionalFaults (i.map Prod.snd) ++ []) rest :=
    hi.bind (Takes.expect_bind semicolon.2 (takes_pure _ rest))
  rw [List.append_nil] at htail
  show varDeclaration expression (t :: (Variable.tokens.initialTokens i ++ [semicolon.1] ++ rest)) =
    ⟨.ok (.declare t (i.map fun p => p.2.tree)), rest, optionalFaults (i.map Prod.snd)⟩
  rw [varDeclaration, hname]
  exact htail

/-- The parser reads every statement, of up to `n` tokens together with what follows, that has its
`else`s near and took the one that follows, if it could. -/
def CompletesStatement (n : Nat) (p : Parser Stmt) : Prop :=
  ∀ (s : Statement) (rest : List Token), (s.tokens ++ rest).length ≤ n → s.Near →
    (s.endsOpen = true → Elseless rest) → Takes p s.tokens s.tree s.faults rest

theorem takes_declaration (hE : Completes n .assignment expression)
    (hS : CompletesStatement n statement) (d : Declaration) (rest : List Token)
    (hlen : (d.tokens ++ rest).length ≤ n) (hnear : d.Near) (helse : Elseless rest) :
    Takes (declaration expression statement) d.tokens (some d.tree) d.faults rest := by
  show declaration expression statement (d.tokens ++ rest) = _
  unfold declaration recovering
  cases d with
  | declare v =>
    have hv : varDeclaration expression _ = _ :=
      takes_varDeclaration hE v rest (Nat.le_succ_of_le hlen)
    simp only [Declaration.tokens, Variable.tokens, List.cons_append] at hv ⊢
    rw [if_pos v.varKw.2, hv]
    rfl
  | statement s =>
    have hs : statement (s.tokens ++ rest) = _ := hS s rest hlen hnear fun _ => helse
    obtain ⟨t, ts, ht, hb⟩ := s.exists_first
    have hvar : t.kind ≠ .keyword .varKw := by
      intro hk
      rw [hk] at hb
      cases hb
    simp only [Declaration.tokens, ht, List.cons_append] at hs ⊢
    rw [if_neg hvar, hs]
    rfl

/-- **A list of declarations is read up to a token that stops it.** -/
theorem takes_declarations (hE : Completes n .assignment expression)
    (hS : CompletesStatement n statement) (stops : Kind → Bool)
    (hstops : ∀ k, k = .keyword .varKw ∨ beginsStatement k = true → stops k = false)
    (ds : List Declaration) (bound : Nat) (rest : List Token)
    (hlen : (Declaration.tokensOf ds ++ rest).length ≤ n)
    (hbound : (Declaration.tokensOf ds).length ≤ bound) (hnear : Declaration.AllNear ds)
    (helse : Elseless rest) (hrest : ∀ t ∈ rest.head?, stops t.kind = true) :
    Takes (declarations stops (declaration expression statement) bound) (Declaration.tokensOf ds)
      (Declaration.trees ds) (Declaration.faultsOf ds) rest := by
  induction ds generalizing bound with
  | nil =>
    show declarations _ _ bound rest = ⟨.ok [], rest, []⟩
    cases bound with
    | zero => rfl
    | succ bound =>
      cases rest with
      | nil => rfl
      | cons t rest => rw [declarations, if_pos (hrest t rfl)]
  | cons d ds ih =>
    obtain ⟨t, ts, ht, hb⟩ := d.exists_first
    simp only [Declaration.tokensOf, List.append_assoc] at hlen
    have hpos : 0 < d.tokens.length := by rw [ht]; exact Nat.succ_pos _
    -- What follows the first declaration is another one, or else what follows the list.
    have hnext : Elseless (Declaration.tokensOf ds ++ rest) := by
      cases ds with
      | nil => exact helse
      | cons d' ds =>
        obtain ⟨t', ts', ht', hb'⟩ := d'.exists_first
        rw [Declaration.tokensOf, ht']
        intro t'' ht'' hk
        obtain rfl : t' = t'' := by simpa using ht''
        rw [hk] at hb'
        obtain h | h := hb' <;> cases h
    have hd := takes_declaration hE hS d _ hlen hnear.1 hnext
    obtain ⟨bound, rfl⟩ : ∃ b, bound = b + 1 := Nat.exists_eq_succ_of_ne_zero (by
      simp only [Declaration.tokensOf, List.length_append] at hbound
      omega)
    have hds := ih bound (by
        simp only [List.length_append] at hlen ⊢
        omega) (by
        simp only [Declaration.tokensOf, List.length_append] at hbound
        omega) hnear.2
    have hall : Takes (do
        let first ← declaration expression statement
        let others ← declarations stops (declaration expression statement) bound
        return first.toList ++ others : Parser (List Stmt)) (d.tokens ++ Declaration.tokensOf ds)
        (d.tree :: Declaration.trees ds) (d.faults ++ Declaration.faultsOf ds) rest :=
      hd.bind hds.bind_pure
    show declarations _ _ (bound + 1) (d.tokens ++ Declaration.tokensOf ds ++ rest) = _
    rw [Takes, ht, List.cons_append, List.cons_append] at hall
    rw [ht, List.cons_append, List.cons_append, declarations, if_neg (by simp [hstops _ hb])]
    exact hall

end Declarations

/-! ### Statements -/

section Statements

variable {n : Nat} {expression : Parser Expr} {statement : Parser Stmt}

/-- An expression and a semicolon. -/
theorem takes_terminated (hE : Completes n .assignment expression) (node : Expr → Stmt)
    (fault : GrammarFault) (e : Expression .assignment)
    (semicolon : Terminal (.symbol .semicolon)) (rest : List Token)
    (hlen : (e.tokens ++ semicolon.1 :: rest).length ≤ n) :
    Takes (do
      let e ← expression
      expect (.symbol .semicolon) fault
      return node e : Parser Stmt) (e.tokens ++ [semicolon.1]) (node e.tree) e.faults rest := by
  have he := hE e _ hlen (ends_semicolon semicolon rest)
  have h : Takes (do
      let e ← expression
      expect (.symbol .semicolon) fault
      return node e : Parser Stmt) (e.tokens ++ [semicolon.1]) (node e.tree) (e.faults ++ []) rest :=
    he.bind (Takes.expect_bind semicolon.2 (takes_pure _ rest))
  rwa [List.append_nil] at h

/-- A condition in its parentheses, before a parser that uses it. -/
theorem takes_condition {α : Type} (hE : Completes n .assignment expression)
    (before after : GrammarFault) (c : Condition) {f : Expr → Parser α} {used rest : List Token}
    {a : α} {log : List Failure} (hlen : (c.tokens ++ (used ++ rest)).length ≤ n)
    (hf : Takes (f c.expr.tree) used a log rest) :
    Takes (do
      expect (.symbol .leftParen) before
      let condition ← expression
      expect (.symbol .rightParen) after
      f condition : Parser α) (c.tokens ++ used) a (c.expr.faults ++ log) rest := by
  have hc : Takes expression c.expr.tokens c.expr.tree c.expr.faults
      (c.rparen.1 :: (used ++ rest)) := by
    refine hE c.expr _ ?_ (ends_rightParen c.rparen _)
    simp only [Condition.tokens, List.length_append, List.length_cons, List.length_nil] at hlen ⊢
    omega
  rw [show c.tokens ++ used = c.lparen.1 :: (c.expr.tokens ++ c.rparen.1 :: used) by
    simp [Condition.tokens]]
  exact Takes.expect_bind c.lparen.2 (hc.bind (Takes.expect_bind c.rparen.2 hf))

/-- An expression or nothing, before a token that cannot begin an expression. -/
theorem takes_exprBefore {k : Kind} (hE : Completes n .assignment expression)
    (hk : beginsExpression k = false) (o : Option (Expression .assignment)) {t : Token}
    (ht : t.kind = k) (rest : List Token) (hends : Ends .assignment (t :: rest))
    (hlen : (optionalTokens o ++ t :: rest).length ≤ n) :
    Takes (exprBefore k expression) (optionalTokens o) (o.map Expression.tree) (optionalFaults o)
      (t :: rest) := by
  cases o with
  | none =>
    show exprBefore k expression (t :: rest) = _
    rw [exprBefore, if_pos ht]
    rfl
  | some e =>
    have he : expression (e.tokens ++ t :: rest) = _ := hE e _ hlen hends
    obtain ⟨t', ts, ht', hb⟩ := e.exists_first
    have hne : t'.kind ≠ k := by
      intro h
      rw [h, hk] at hb
      cases hb
    show exprBefore k expression (e.tokens ++ t :: rest) = _
    rw [ht', List.cons_append] at he ⊢
    rw [exprBefore, if_neg hne, he]
    rfl

theorem takes_loopInitial (hE : Completes n .assignment expression) (i : Initial)
    (rest : List Token) (hlen : (i.tokens ++ rest).length ≤ n) :
    Takes (loopInitial expression) i.tokens i.tree i.faults rest := by
  cases i with
  | none semicolon =>
    show loopInitial expression (semicolon.1 :: rest) = _
    rw [loopInitial, semicolon.2]
    rfl
  | declare v =>
    have hv : varDeclaration expression _ = _ :=
      takes_varDeclaration hE v rest (Nat.le_succ_of_le hlen)
    show loopInitial expression (v.varKw.1 :: (v.name.1 ::
      (Variable.tokens.initialTokens v.initial ++ [v.semicolon.1]) ++ rest)) = _
    rw [loopInitial, v.varKw.2]
    simp only [hv]
    rfl
  | expr e semicolon =>
    have he : exprStatement expression (e.tokens ++ [semicolon.1] ++ rest) = _ :=
      takes_terminated hE .expr .semicolonAfterExpression e semicolon rest
        (by simpa [Initial.tokens] using hlen)
    obtain ⟨t, ts, ht, hb⟩ := e.exists_first
    show loopInitial expression (e.tokens ++ [semicolon.1] ++ rest) = _
    rw [ht, List.cons_append, List.cons_append] at he ⊢
    rw [loopInitial, he]
    split
    · next hk => rw [hk] at hb; cases hb
    · next hk => rw [hk] at hb; cases hb
    · rfl

theorem takes_forLoop (hE : Completes n .assignment expression)
    (hS : CompletesStatement n statement) (h : Header) (body : Statement) (rest : List Token)
    (hlen : (h.tokens ++ body.tokens ++ rest).length ≤ n) (hnear : body.Near)
    (hopen : body.endsOpen = true → Elseless rest) :
    Takes (forLoop expression statement) (h.tokens ++ body.tokens) (h.tree body.tree)
      (h.faults ++ body.faults) rest := by
  have hlen' : (h.lparen.1 :: (h.initial.tokens ++ (optionalTokens h.condition ++
      h.semicolon.1 :: (optionalTokens h.increment ++
        h.rparen.1 :: (body.tokens ++ rest))))).length ≤ n := by
    simpa [Header.tokens] using hlen
  simp only [List.length_cons, List.length_append] at hlen'
  have hbody := hS body rest (by simp only [List.length_append]; omega) hnear hopen
  have hinc := takes_exprBefore hE (k := .symbol .rightParen) rfl h.increment h.rparen.2
    (body.tokens ++ rest) (ends_rightParen h.rparen _)
    (by simp only [List.length_cons, List.length_append]; omega)
  have hcond := takes_exprBefore hE (k := .symbol .semicolon) rfl h.condition h.semicolon.2
    (optionalTokens h.increment ++ h.rparen.1 :: (body.tokens ++ rest))
    (ends_semicolon h.semicolon _)
    (by simp only [List.length_cons, List.length_append]; omega)
  have hinit := takes_loopInitial hE h.initial (optionalTokens h.condition ++
      h.semicolon.1 :: (optionalTokens h.increment ++ h.rparen.1 :: (body.tokens ++ rest)))
    (by simp only [List.length_cons, List.length_append]; omega)
  rw [h.tree_eq_countingLoop, show h.tokens ++ body.tokens = h.lparen.1 :: (h.initial.tokens ++
      (optionalTokens h.condition ++ h.semicolon.1 :: (optionalTokens h.increment ++
        h.rparen.1 :: body.tokens))) by simp [Header.tokens],
    show h.faults ++ body.faults = h.initial.faults ++ (optionalFaults h.condition ++
      (optionalFaults h.increment ++ body.faults)) by simp [Header.faults]]
  have htail := hbody.bind_pure (g := countingLoop h.initial.tree (h.condition.map Expression.tree)
    (h.increment.map Expression.tree))
  exact Takes.expect_bind h.lparen.2 <| (by simpa using hinit : Takes _ _ _ _ (_ ++ rest)).bind <|
    (by simpa using hcond : Takes _ _ _ _ (_ ++ rest)).bind <| Takes.expect_bind h.semicolon.2 <|
    (by simpa using hinc : Takes _ _ _ _ (_ ++ rest)).bind <| Takes.expect_bind h.rparen.2 htail

theorem takes_block (hE : Completes n .assignment expression)
    (hS : CompletesStatement n statement) (ds : List Declaration)
    (rbrace : Terminal (.symbol .rightBrace)) (rest : List Token)
    (hlen : (Declaration.tokensOf ds ++ rbrace.1 :: rest).length ≤ n)
    (hnear : Declaration.AllNear ds) :
    Takes (block n (declaration expression statement)) (Declaration.tokensOf ds ++ [rbrace.1])
      (.block (Declaration.trees ds)) (Declaration.faultsOf ds) rest := by
  have hstops : ∀ k, k = .keyword .varKw ∨ beginsStatement k = true →
      decide (k = .symbol .rightBrace) = false := by
    intro k hk
    refine decide_eq_false fun he => ?_
    rw [he] at hk
    obtain h | h := hk <;> cases h
  have hbody := takes_declarations hE hS _ hstops ds n (rbrace.1 :: rest) hlen
    (by simp only [List.length_append] at hlen; omega) hnear
    (by simp [Elseless, rbrace.2]) (by simp [rbrace.2])
  have h : Takes (block n (declaration expression statement))
      (Declaration.tokensOf ds ++ [rbrace.1]) (.block (Declaration.trees ds))
      (Declaration.faultsOf ds ++ []) rest :=
    hbody.bind (Takes.expect_bind rbrace.2 (takes_pure _ rest))
  rwa [List.append_nil] at h

theorem takes_otherwise (hS : CompletesStatement n statement) (condition : Expr) (yes : Stmt)
    (elseKw : Terminal (.keyword .elseKw)) (no : Statement) (rest : List Token)
    (hlen : (no.tokens ++ rest).length ≤ n) (hnear : no.Near)
    (hopen : no.endsOpen = true → Elseless rest) :
    Takes (otherwise statement condition yes) (elseKw.1 :: no.tokens)
      (.ifElse condition yes no.tree) no.faults rest := by
  have hno : statement (no.tokens ++ rest) = _ := hS no rest hlen hnear hopen
  show otherwise statement condition yes (elseKw.1 :: (no.tokens ++ rest)) = _
  rw [otherwise, if_pos elseKw.2, hno]
  rfl

theorem takes_otherwise_nil (statement : Parser Stmt) (condition : Expr) (yes : Stmt)
    {rest : List Token} (h : Elseless rest) :
    Takes (otherwise statement condition yes) [] (.ifThen condition yes) [] rest := by
  cases rest with
  | nil => rfl
  | cons t rest =>
    show otherwise statement condition yes (t :: rest) = _
    rw [otherwise, if_neg (h t rfl)]

end Statements

/-- What begins like an expression is read as one. -/
theorem statement_eq_exprStatement {t : Token} (h : beginsExpression t.kind = true) (bound : Nat)
    (ts : List Token) :
    statement (bound + 1) (t :: ts) = exprStatement (expression (bound + 1)) (t :: ts) := by
  rw [statement]
  split <;> simp_all [beginsExpression]

/-- **A statement that has a derivation is read.** -/
theorem completes_statement (bound : Nat) : CompletesStatement bound (statement bound) := by
  induction bound with
  | zero =>
    intro s rest hlen _ _
    obtain ⟨t, ts, ht, _⟩ := s.exists_first
    rw [ht] at hlen
    cases hlen
  | succ bound ih =>
    have hE := completes_expression bound
    intro s rest hlen hnear hopen
    cases s with
    | expr e semicolon =>
      have he : exprStatement (expression (bound + 1)) (e.tokens ++ [semicolon.1] ++ rest) = _ :=
        takes_terminated (completes_expression (bound + 1)) .expr .semicolonAfterExpression e
          semicolon rest (by simpa [Statement.tokens] using hlen)
      obtain ⟨t, ts, ht, hb⟩ := e.exists_first
      show statement (bound + 1) (e.tokens ++ [semicolon.1] ++ rest) = _
      rw [ht, List.cons_append, List.cons_append] at he ⊢
      rw [statement_eq_exprStatement hb, he]
      rfl
    | print printKw e semicolon =>
      have he : printStatement (expression bound) (e.tokens ++ [semicolon.1] ++ rest) = _ :=
        takes_terminated hE .print .semicolonAfterValue e semicolon rest
          (by simpa [Statement.tokens] using hlen)
      show statement (bound + 1) (printKw.1 :: (e.tokens ++ [semicolon.1] ++ rest)) = _
      rw [statement, printKw.2]
      exact he
    | block lbrace body rbrace =>
      have hb := takes_block hE ih body rbrace rest (by simpa [Statement.tokens] using hlen) hnear
      show statement (bound + 1) (lbrace.1 :: (Declaration.tokensOf body ++ [rbrace.1] ++ rest)) = _
      rw [statement, lbrace.2]
      exact hb
    | ifThen ifKw c yes =>
      have hlen' : (c.tokens ++ (yes.tokens ++ rest)).length ≤ bound := by
        simpa [Statement.tokens] using hlen
      have hyes := ih yes rest (by simp only [List.length_append] at hlen' ⊢; omega) hnear
        fun _ => hopen rfl
      have h : Takes (conditional (expression bound) (statement bound)) (c.tokens ++ (yes.tokens ++ []))
          _ (c.expr.faults ++ (yes.faults ++ [])) rest :=
        takes_condition hE _ _ c (by simpa using hlen')
          (hyes.bind (takes_otherwise_nil _ c.expr.tree yes.tree (hopen rfl)))
      rw [List.append_nil, List.append_nil] at h
      show statement (bound + 1) (ifKw.1 :: (c.tokens ++ yes.tokens ++ rest)) = _
      rw [statement, ifKw.2]
      exact h
    | ifElse ifKw c yes elseKw no =>
      have hlen' : (c.tokens ++ (yes.tokens ++ elseKw.1 :: (no.tokens ++ rest))).length ≤ bound := by
        simpa [Statement.tokens] using hlen
      simp only [List.length_append, List.length_cons] at hlen'
      obtain ⟨hclosed, hyes, hno⟩ := hnear
      have hyes := ih yes (elseKw.1 :: (no.tokens ++ rest))
        (by simp only [List.length_append, List.length_cons]; omega) hyes
        (fun h => by rw [hclosed] at h; cases h)
      have hno := takes_otherwise ih c.expr.tree yes.tree elseKw no rest
        (by simp only [List.length_append]; omega) hno hopen
      have h : Takes (conditional (expression bound) (statement bound))
          (c.tokens ++ (yes.tokens ++ elseKw.1 :: no.tokens)) _
          (c.expr.faults ++ (yes.faults ++ no.faults)) rest :=
        takes_condition hE _ _ c
          (by simp only [List.length_append, List.length_cons]; omega) (hyes.bind hno)
      show statement (bound + 1)
        (ifKw.1 :: (c.tokens ++ (yes.tokens ++ elseKw.1 :: no.tokens) ++ rest)) = _
      rw [statement, ifKw.2]
      exact h
    | whileLoop whileKw c body =>
      have hlen' : (c.tokens ++ (body.tokens ++ rest)).length ≤ bound := by
        simpa [Statement.tokens] using hlen
      have hbody := ih body rest (by simp only [List.length_append] at hlen' ⊢; omega) hnear hopen
      have h : Takes (whileLoop (expression bound) (statement bound)) (c.tokens ++ body.tokens) _
          (c.expr.faults ++ body.faults) rest :=
        takes_condition hE _ _ c hlen' (hbody.bind_pure (g := Stmt.loop c.expr.tree))
      show statement (bound + 1) (whileKw.1 :: (c.tokens ++ body.tokens ++ rest)) = _
      rw [statement, whileKw.2]
      exact h
    | forLoop forKw header body =>
      have h := takes_forLoop hE ih header body rest (by simpa [Statement.tokens] using hlen) hnear
        hopen
      show statement (bound + 1) (forKw.1 :: (header.tokens ++ body.tokens ++ rest)) = _
      rw [statement, forKw.2]
      exact h

/-- **A program that has a derivation with its `else`s near is read.** -/
theorem program_of_derivation (ds : List Declaration) (hnear : Declaration.AllNear ds) :
    program (Declaration.tokensOf ds) =
      ⟨.ok (Declaration.trees ds), [], Declaration.faultsOf ds⟩ := by
  have h := takes_declarations (completes_expression (Declaration.tokensOf ds).length)
    (completes_statement (Declaration.tokensOf ds).length) (fun _ => false) (fun _ _ => rfl) ds _ []
    (Nat.le_of_eq (by rw [List.append_nil])) (Nat.le_refl _) hnear (by simp [Elseless]) (by simp)
  rwa [Takes, List.append_nil] at h

end Parser

end Lox
