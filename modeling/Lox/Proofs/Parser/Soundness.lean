import Lox.Program
import Lox.Proofs.Grammar.Basic

/-!
# What is read has a derivation

Whatever a parser reads without starting again is the tree of a derivation of the tokens that it
read, and its log holds the faults of that derivation.  The derivation has its `else`s near: a
parser that could still take an `else` does so, hence a statement that ends open is not followed by
one.

The bound on the number of tokens plays no part here: a parser that runs out of it fails, or stops
between an operand and an operator, and what it has read is derived all the same.
-/

namespace Lox

open Grammar

namespace Parser

/-! ### Expressions -/

/-- What was read is the tree of an expression. -/
def Derived (r : Rank) (a : Expr) (used _rest : List Token) (log : List Failure) : Prop :=
  ∃ e : Expression r, e.tree = a ∧ e.tokens = used ∧ e.faults = log

/-- What was read continues the expression `left` of a level. -/
def Continued (l : Level) (left : Expr) (a : Expr) (used _rest : List Token)
    (log : List Failure) : Prop :=
  ∀ e : Expression (.level l), e.tree = left →
    ∃ e' : Expression (.level l), e'.tree = a ∧ e'.tokens = e.tokens ++ used ∧
      e'.faults = e.faults ++ log

theorem reads_primary {expression : Parser Expr} (h : Reads expression (Derived .assignment)) :
    Reads (primary expression) (Derived .primary) := by
  intro ts
  cases ts with
  | nil => exact meets_fail (by decide) _ _
  | cons t ts =>
    rw [primary]
    split
    · next n hn =>
      refine (meets_one t ts (Expr.name t)).mono fun a used rest log => ?_
      rintro ⟨rfl, rfl, rfl⟩
      exact ⟨.name ⟨t, n, hn⟩, rfl, rfl, rfl⟩
    · next hk =>
      have hrest : ∀ e, Reads (do
          expect (.symbol .rightParen) .parenAfterExpression
          return .grouping e : Parser Expr) _ :=
        fun e => Reads.expect_bind (by decide) (reads_pure _)
      refine (((h ts).bind hrest).cons t).mono fun a used rest log => ?_
      rintro ⟨_, rfl, _, _, _, _, _, rfl, rfl, ⟨e, rfl, rfl, rfl⟩, t', _, ht', rfl, rfl, rfl, rfl⟩
      exact ⟨.grouping ⟨t, hk⟩ e ⟨t', ht'⟩, rfl, rfl, by simp [Expression.faults]⟩
    · split
      · next v hv =>
        refine (meets_one t ts (Expr.literal v)).mono fun a used rest log => ?_
        rintro ⟨rfl, rfl, rfl⟩
        exact ⟨.literal t v (denotes_iff.mpr hv), rfl, rfl, rfl⟩
      · exact meets_fail (by decide) _ _

theorem reads_unary {expression : Parser Expr} (h : Reads expression (Derived .assignment)) :
    Reads (unary expression) (Derived .unary) := by
  have base : ∀ ts, Meets ts (primary expression ts) (Derived .unary) := by
    intro ts
    refine (reads_primary h ts).mono fun a used rest log => ?_
    rintro ⟨e, rfl, rfl, rfl⟩
    exact ⟨.primary e, rfl, rfl, rfl⟩
  intro ts
  induction ts with
  | nil => exact base []
  | cons t ts ih =>
    rw [unary]
    split
    · next hu =>
      refine ((ih.map (Expr.unary t)).cons t).mono fun a used rest log => ?_
      rintro ⟨_, rfl, _, rfl, e, rfl, rfl, rfl⟩
      exact ⟨.unary ⟨t, mem_prefixes_iff.mpr hu⟩ e, rfl, rfl, rfl⟩
    · exact base (t :: ts)

theorem reads_operators {l : Level} {operand : Parser Expr}
    (h : Reads operand (Derived (tighter l))) (bound : Nat) (left : Expr) :
    Reads (operators l operand bound left) (Continued l left) := by
  have stop : ∀ left ts, Meets ts ⟨.ok left, ts, []⟩ (Continued l left) := by
    intro left ts
    refine (meets_stay ts left).mono fun a used rest log => ?_
    rintro ⟨rfl, rfl, rfl⟩ e he
    exact ⟨e, he, (List.append_nil _).symm, (List.append_nil _).symm⟩
  induction bound generalizing left with
  | zero => exact fun ts => stop left ts
  | succ bound ih =>
    intro ts
    cases ts with
    | nil => exact stop left []
    | cons t ts =>
      rw [operators]
      split
      · next hl =>
        refine (((h ts).bind fun right => ih (l.node left t right)).cons t).mono
          fun a used rest log => ?_
        rintro ⟨_, rfl, _, _, _, _, _, rfl, rfl, ⟨right, rfl, rfl, rfl⟩, hcont⟩ e rfl
        obtain ⟨e', htree, htokens, hfaults⟩ :=
          hcont (.operation e ⟨t, mem_operators_iff.mpr hl⟩ right) (Expression.tree_operation ..)
        exact ⟨e', htree, by simp [htokens, Expression.tokens], by simp [hfaults, Expression.faults]⟩
      · exact stop left (t :: ts)

theorem reads_leveled {l : Level} {operand : Parser Expr} (bound : Nat)
    (h : Reads operand (Derived (tighter l))) :
    Reads (leveled bound l operand) (Derived (.level l)) := by
  intro ts
  refine (h.bind (reads_operators h bound) ts).mono fun a used rest log => ?_
  rintro ⟨_, _, _, _, _, rfl, rfl, ⟨e, rfl, rfl, rfl⟩, hcont⟩
  exact hcont (.operand e) rfl

theorem reads_disjunction {expression : Parser Expr} (bound : Nat)
    (h : Reads expression (Derived .assignment)) :
    Reads (disjunction bound expression) (Derived (.level .or)) :=
  reads_leveled bound <| reads_leveled bound <| reads_leveled bound <| reads_leveled bound <|
    reads_leveled bound <| reads_leveled bound <| reads_unary h

/-- What was read continues the left side `left` of an assignment. -/
def Assigned (left : Expr) (a : Expr) (used _rest : List Token) (log : List Failure) : Prop :=
  ∀ e : Expression (.level .or), e.tree = left →
    ∃ e' : Expression .assignment, e'.tree = a ∧ e'.tokens = e.tokens ++ used ∧
      e'.faults = e.faults ++ log

theorem reads_assignment (left : Expr) (equals : Token) (value : Expr) :
    Reads (assignment left equals value) fun a used _ log => used = [] ∧
      ((∃ t, left = .name t ∧ a = .assign t value ∧ log = []) ∨
        ((∀ t, left ≠ .name t) ∧ a = left ∧ log = [⟨.assignmentTarget, some equals⟩])) := by
  intro ts
  unfold assignment
  split
  · next t =>
    refine (meets_stay ts (Expr.assign t value)).mono fun a used rest log => ?_
    rintro ⟨rfl, rfl, rfl⟩
    exact ⟨rfl, .inl ⟨t, rfl, rfl, rfl⟩⟩
  · next hne =>
    refine (((reads_note .assignmentTarget equals).bind fun _ => reads_pure left) ts).mono
      fun a used rest log => ?_
    rintro ⟨_, _, _, _, _, rfl, rfl, ⟨rfl, rfl⟩, rfl, rfl, rfl⟩
    exact ⟨rfl, .inr ⟨hne, rfl, rfl⟩⟩

theorem reads_assigned {expression : Parser Expr} (h : Reads expression (Derived .assignment))
    (left : Expr) : Reads (assigned expression left) (Assigned left) := by
  have stop : ∀ ts, Meets ts ⟨.ok left, ts, []⟩ (Assigned left) := by
    intro ts
    refine (meets_stay ts left).mono fun a used rest log => ?_
    rintro ⟨rfl, rfl, rfl⟩ e he
    exact ⟨.plain e, he, (List.append_nil _).symm, (List.append_nil _).symm⟩
  intro ts
  cases ts with
  | nil => exact stop []
  | cons t ts =>
    rw [assigned]
    split
    · next hk =>
      refine (((h ts).bind fun value => reads_assignment left t value).cons t).mono
        fun a used rest log => ?_
      rintro ⟨_, rfl, _, _, _, _, _, rfl, rfl, ⟨value, rfl, rfl, rfl⟩, rfl, hcase⟩ e rfl
      obtain ⟨n, hn, rfl, rfl⟩ | ⟨hn, rfl, rfl⟩ := hcase
      · have hname := e.name?_of_tree hn
        exact ⟨.assign e ⟨t, hk⟩ value, by simp only [Expression.tree, hname],
          by simp [Expression.tokens], by simp only [Expression.faults, hname]⟩
      · have hname : e.name? = none :=
          Option.eq_none_iff_forall_ne_some.mpr fun n hs => hn n (e.tree_of_name? hs)
        exact ⟨.assign e ⟨t, hk⟩ value, by simp only [Expression.tree, hname],
          by simp [Expression.tokens], by simp only [Expression.faults, hname]⟩
    · exact stop (t :: ts)

/-- **An expression that is read has a derivation.** -/
theorem reads_expression (bound : Nat) : Reads (expression bound) (Derived .assignment) := by
  induction bound with
  | zero => exact fun ts => meets_fail (by decide) ts _
  | succ bound ih =>
    intro ts
    refine ((reads_disjunction bound ih).bind (reads_assigned ih) ts).mono fun a used rest log => ?_
    rintro ⟨_, _, _, _, _, rfl, rfl, ⟨e, rfl, rfl, rfl⟩, hcont⟩
    exact hcont e rfl

/-! ### Declarations -/

theorem reads_initialValue {expression : Parser Expr} (h : Reads expression (Derived .assignment)) :
    Reads (varDeclaration.initialValue expression) fun a used _ log =>
      ∃ i : Option (Terminal (.symbol .equal) × Expression .assignment),
        a = i.map (fun p => p.2.tree) ∧ used = Variable.tokens.initialTokens i ∧
          log = optionalFaults (i.map Prod.snd) := by
  have stop : ∀ ts, Meets ts (⟨.ok none, ts, []⟩ : Reply (Option Expr)) fun a used _ log =>
      ∃ i : Option (Terminal (.symbol .equal) × Expression .assignment),
        a = i.map (fun p => p.2.tree) ∧ used = Variable.tokens.initialTokens i ∧
          log = optionalFaults (i.map Prod.snd) := by
    intro ts
    refine (meets_stay ts none).mono fun a used rest log => ?_
    rintro ⟨rfl, rfl, rfl⟩
    exact ⟨none, rfl, rfl, rfl⟩
  intro ts
  cases ts with
  | nil => exact stop []
  | cons t ts =>
    rw [varDeclaration.initialValue]
    split
    · next hk =>
      refine (((h ts).map some).cons t).mono fun a used rest log => ?_
      rintro ⟨_, rfl, _, rfl, e, rfl, rfl, rfl⟩
      exact ⟨some (⟨t, hk⟩, e), rfl, rfl, rfl⟩
    · exact stop (t :: ts)

theorem reads_varDeclaration {expression : Parser Expr}
    (h : Reads expression (Derived .assignment)) :
    Reads (varDeclaration expression) fun a used _ log => ∀ varKw : Terminal (.keyword .varKw),
      ∃ v : Variable, v.tree = a ∧ v.tokens = varKw.1 :: used ∧ v.faults = log := by
  intro ts
  cases ts with
  | nil => exact meets_fail (by decide) _ _
  | cons t ts =>
    rw [varDeclaration]
    split
    · next n hn =>
      have hrest : ∀ i, Reads (do
          expect (.symbol .semicolon) .semicolonAfterDeclaration
          return .declare t i : Parser Stmt) _ :=
        fun i => Reads.expect_bind (by decide) (reads_pure _)
      refine (((reads_initialValue h ts).bind hrest).cons t).mono fun a used rest log => ?_
      rintro ⟨_, rfl, _, _, _, _, _, rfl, rfl, ⟨i, rfl, rfl, rfl⟩, t', _, ht', rfl, rfl, rfl, rfl⟩
        varKw
      exact ⟨⟨varKw, ⟨t, n, hn⟩, i, ⟨t', ht'⟩⟩, rfl, rfl, by simp [Variable.faults]⟩
    · exact meets_fail (by decide) _ _

/-- A reader that starts again after a failure leaves a log that is not clean. -/
theorem Reads.recovering {α : Type} {p : Parser α}
    {D : α → List Token → List Token → List Failure → Prop} (h : Reads p D) :
    Reads (recovering p) fun o used rest log => ∃ a, o = some a ∧ D a used rest log := by
  intro ts
  have hp := h ts
  unfold Parser.recovering
  match p ts, hp with
  | ⟨.ok a, rest, log⟩, hp =>
    intro hc
    obtain ⟨used, hts, hD⟩ := hp hc
    exact ⟨used, hts, a, rfl, hD⟩
  | ⟨.error f, rest, log⟩, hp =>
    intro hc
    exact absurd (hc f (by simp)) hp

/-- What was read is the tree of a statement, which took every `else` that it could take. -/
def DerivedStatement (a : Stmt) (used rest : List Token) (log : List Failure) : Prop :=
  ∃ s : Statement, s.tree = a ∧ s.tokens = used ∧ s.faults = log ∧ s.Near ∧
    (s.endsOpen = true → Elseless rest)

/-- What was read is the tree of a declaration. -/
def DerivedDeclaration (a : Option Stmt) (used _rest : List Token) (log : List Failure) : Prop :=
  ∃ d : Declaration, a = some d.tree ∧ d.tokens = used ∧ d.faults = log ∧ d.Near

theorem reads_declaration {expression : Parser Expr} {statement : Parser Stmt}
    (hE : Reads expression (Derived .assignment)) (hS : Reads statement DerivedStatement) :
    Reads (declaration expression statement) DerivedDeclaration := by
  have hstmt : ∀ ts, Meets ts (statement ts) fun a used _ log =>
      ∃ d : Declaration, d.tree = a ∧ d.tokens = used ∧ d.faults = log ∧ d.Near := by
    intro ts
    refine (hS ts).mono fun a used rest log => ?_
    rintro ⟨s, rfl, rfl, rfl, hnear, _⟩
    exact ⟨.statement s, rfl, rfl, rfl, hnear⟩
  intro ts
  refine (Reads.recovering (D := fun a used _ log => ∃ d : Declaration,
    d.tree = a ∧ d.tokens = used ∧ d.faults = log ∧ d.Near) (fun ts => ?_) ts).mono
    fun a used rest log => ?_
  · cases ts with
    | nil => exact hstmt []
    | cons t ts =>
      simp only
      split
      · next hk =>
        refine ((reads_varDeclaration hE ts).cons t).mono fun a used rest log => ?_
        rintro ⟨_, rfl, hv⟩
        obtain ⟨v, rfl, htokens, rfl⟩ := hv ⟨t, hk⟩
        exact ⟨.declare v, rfl, htokens, rfl, trivial⟩
      · exact hstmt (t :: ts)
  · rintro ⟨_, rfl, d, rfl, hd⟩
    exact ⟨d, rfl, hd⟩

/-- What was read are the trees of declarations, as many as there are before a token that stops
them, if the bound allows. -/
def DerivedDeclarations (stops : Kind → Bool) (bound : Nat) (as : List Stmt)
    (used rest : List Token) (log : List Failure) : Prop :=
  ∃ ds : List Declaration, Declaration.trees ds = as ∧ Declaration.tokensOf ds = used ∧
    Declaration.faultsOf ds = log ∧ Declaration.AllNear ds ∧
    ((used ++ rest).length ≤ bound → ∀ t ∈ rest.head?, stops t.kind = true)

theorem reads_declarations {declare : Parser (Option Stmt)} (h : Reads declare DerivedDeclaration)
    (stops : Kind → Bool) (bound : Nat) :
    Reads (declarations stops declare bound) (DerivedDeclarations stops bound) := by
  have stop : ∀ bound ts, (ts.length ≤ bound → ∀ t ∈ ts.head?, stops t.kind = true) →
      Meets ts ⟨.ok [], ts, []⟩ (DerivedDeclarations stops bound) := by
    intro bound ts hts _
    exact ⟨[], rfl, [], rfl, rfl, rfl, trivial, hts⟩
  induction bound with
  | zero =>
    intro ts
    refine stop 0 ts fun hlen => ?_
    rw [List.length_eq_zero_iff.mp (Nat.le_zero.mp hlen)]
    simp
  | succ bound ih =>
    intro ts
    cases ts with
    | nil => exact stop (bound + 1) [] (by simp)
    | cons t ts =>
      rw [declarations]
      split
      · next hs => exact stop (bound + 1) (t :: ts) (by simpa using fun _ => hs)
      · refine ((h.bind fun first => ih.bind_pure (first.toList ++ ·)) (t :: ts)).mono
          fun as used rest log => ?_
        rintro ⟨_, _, _, _, _, rfl, rfl, ⟨d, rfl, rfl, rfl, hd⟩, _, rfl, ds, rfl, rfl, rfl, hds, hrest⟩
        refine ⟨d :: ds, rfl, rfl, rfl, ⟨hd, hds⟩, fun hlen => hrest ?_⟩
        -- A declaration takes at least one token, so the bound still allows for the others.
        obtain ⟨t', ts', ht', _⟩ := d.exists_first
        simp only [ht', List.length_append, List.length_cons] at hlen ⊢
        omega

/-! ### Statements -/

section Statements

variable {expression : Parser Expr} {statement : Parser Stmt}
  (hE : Reads expression (Derived .assignment)) (hS : Reads statement DerivedStatement)

include hE

/-- An expression and a semicolon. -/
theorem reads_terminated (node : Expr → Stmt) {fault : GrammarFault}
    (hf : fault ≠ .assignmentTarget) :
    Reads (do
        let e ← expression
        expect (.symbol .semicolon) fault
        return node e : Parser Stmt) fun a used _ log =>
      ∃ (e : Expression .assignment) (semicolon : Terminal (.symbol .semicolon)),
        a = node e.tree ∧ used = e.tokens ++ [semicolon.1] ∧ log = e.faults := by
  intro ts
  refine (hE.bind fun e => Reads.expect_bind hf (reads_pure (node e))) ts |>.mono
    fun a used rest log => ?_
  rintro ⟨_, _, _, _, _, rfl, rfl, ⟨e, rfl, rfl, rfl⟩, t, _, ht, rfl, rfl, rfl, rfl⟩
  exact ⟨e, ⟨t, ht⟩, rfl, rfl, by simp⟩

theorem reads_exprStatement : Reads (exprStatement expression) fun a used _ log =>
    ∃ (e : Expression .assignment) (semicolon : Terminal (.symbol .semicolon)),
      a = .expr e.tree ∧ used = e.tokens ++ [semicolon.1] ∧ log = e.faults :=
  reads_terminated hE .expr (by decide)

theorem reads_printStatement : Reads (printStatement expression) fun a used _ log =>
    ∃ (e : Expression .assignment) (semicolon : Terminal (.symbol .semicolon)),
      a = .print e.tree ∧ used = e.tokens ++ [semicolon.1] ∧ log = e.faults :=
  reads_terminated hE .print (by decide)

include hS

theorem reads_block (bound : Nat) :
    Reads (block bound (declaration expression statement)) fun a used _ log =>
      ∃ (ds : List Declaration) (rbrace : Terminal (.symbol .rightBrace)),
        a = .block (Declaration.trees ds) ∧ used = Declaration.tokensOf ds ++ [rbrace.1] ∧
          log = Declaration.faultsOf ds ∧ Declaration.AllNear ds := by
  intro ts
  have hrest : ∀ body, Reads (do
      expect (.symbol .rightBrace) .braceAfterBlock
      return .block body : Parser Stmt) _ :=
    fun body => Reads.expect_bind (by decide) (reads_pure _)
  refine ((reads_declarations (reads_declaration hE hS) _ bound).bind hrest) ts |>.mono
    fun a used rest log => ?_
  rintro ⟨_, _, _, _, _, rfl, rfl, ⟨ds, rfl, rfl, rfl, hnear, _⟩, t, _, ht, rfl, rfl, rfl, rfl⟩
  exact ⟨ds, ⟨t, ht⟩, rfl, rfl, by simp, hnear⟩

omit hE in
theorem reads_otherwise (condition : Expr) (yes : Stmt) :
    Reads (otherwise statement condition yes) fun a used rest log =>
      (a = .ifThen condition yes ∧ used = [] ∧ log = [] ∧ Elseless rest) ∨
        ∃ (elseKw : Terminal (.keyword .elseKw)) (no : Statement),
          a = .ifElse condition yes no.tree ∧ used = elseKw.1 :: no.tokens ∧ log = no.faults ∧
            no.Near ∧ (no.endsOpen = true → Elseless rest) := by
  intro ts
  cases ts with
  | nil => exact fun _ => ⟨[], rfl, .inl ⟨rfl, rfl, rfl, by simp [Elseless]⟩⟩
  | cons t ts =>
    rw [otherwise]
    split
    · next hk =>
      refine (((hS ts).map (Stmt.ifElse condition yes)).cons t).mono fun a used rest log => ?_
      rintro ⟨_, rfl, _, rfl, no, rfl, rfl, rfl, hnear, hopen⟩
      exact .inr ⟨⟨t, hk⟩, no, rfl, rfl, rfl, hnear, hopen⟩
    · next hk => exact fun _ => ⟨[], rfl, .inl ⟨rfl, rfl, rfl, by simpa [Elseless] using hk⟩⟩

omit hS in
/-- A condition in its parentheses, and then what the next step reads. -/
theorem reads_condition {α : Type} {before after : GrammarFault} (hb : before ≠ .assignmentTarget)
    (ha : after ≠ .assignmentTarget) {f : Expr → Parser α}
    {D : Expr → α → List Token → List Token → List Failure → Prop} (hf : ∀ c, Reads (f c) (D c)) :
    Reads (do
        expect (.symbol .leftParen) before
        let condition ← expression
        expect (.symbol .rightParen) after
        f condition : Parser α) fun a used rest log =>
      ∃ (c : Condition) (v : List Token) (m : List Failure), used = c.tokens ++ v ∧
        log = c.expr.faults ++ m ∧ D c.expr.tree a v rest m := by
  intro ts
  refine (Reads.expect_bind hb (hE.bind fun c => Reads.expect_bind ha (hf c))) ts |>.mono
    fun a used rest log => ?_
  rintro ⟨lparen, _, hl, rfl, _, _, _, _, m, rfl, rfl, ⟨c, rfl, rfl, rfl⟩, rparen, v, hr, rfl, hD⟩
  exact ⟨⟨⟨lparen, hl⟩, c, ⟨rparen, hr⟩⟩, v, m, by simp [Condition.tokens], rfl, hD⟩

theorem reads_conditional : Reads (conditional expression statement) fun a used rest log =>
    ∀ ifKw : Terminal (.keyword .ifKw), DerivedStatement a (ifKw.1 :: used) rest log := by
  intro ts
  refine (reads_condition hE (by decide) (by decide) fun c => hS.bind fun yes =>
    reads_otherwise hS c yes) ts |>.mono fun a used rest log => ?_
  rintro ⟨c, _, _, rfl, rfl, _, _, _, _, _, rfl, rfl, ⟨yes, rfl, rfl, rfl, hyes, hopen⟩, helse⟩ ifKw
  obtain ⟨rfl, rfl, rfl, hrest⟩ | ⟨elseKw, no, rfl, rfl, rfl, hno, hno'⟩ := helse
  · exact ⟨.ifThen ifKw c yes, rfl, by simp [Statement.tokens], by simp [Statement.faults], hyes,
      fun _ => hrest⟩
  · -- The first branch took every `else` that it could take, and here is one that it left.
    have hclosed : yes.endsOpen = false := by
      rw [← Bool.not_eq_true]
      intro h
      exact hopen h elseKw.1 rfl elseKw.2
    exact ⟨.ifElse ifKw c yes elseKw no, rfl, rfl, rfl, ⟨hclosed, hyes, hno⟩, hno'⟩

theorem reads_whileLoop : Reads (whileLoop expression statement) fun a used rest log =>
    ∀ whileKw : Terminal (.keyword .whileKw), DerivedStatement a (whileKw.1 :: used) rest log := by
  intro ts
  refine (reads_condition hE (by decide) (by decide) fun c => hS.bind_pure (Stmt.loop c)) ts |>.mono
    fun a used rest log => ?_
  rintro ⟨c, _, _, rfl, rfl, _, rfl, body, rfl, rfl, rfl, hbody, hopen⟩ whileKw
  exact ⟨.whileLoop whileKw c body, rfl, rfl, rfl, hbody, hopen⟩

end Statements

/-! ### Counting loops -/

section Loops

variable {expression : Parser Expr} {statement : Parser Stmt}
  (hE : Reads expression (Derived .assignment)) (hS : Reads statement DerivedStatement)

include hE

theorem reads_loopInitial : Reads (loopInitial expression) fun a used _ log =>
    ∃ i : Initial, a = i.tree ∧ used = i.tokens ∧ log = i.faults := by
  have hexpr : ∀ ts, Meets ts ((exprStatement expression ts).map some) fun a used _ log =>
      ∃ i : Initial, a = i.tree ∧ used = i.tokens ∧ log = i.faults := by
    intro ts
    refine ((reads_exprStatement hE ts).map some).mono fun a used rest log => ?_
    rintro ⟨_, rfl, e, semicolon, rfl, rfl, rfl⟩
    exact ⟨.expr e semicolon, rfl, rfl, rfl⟩
  intro ts
  cases ts with
  | nil => exact hexpr []
  | cons t ts =>
    rw [loopInitial]
    split
    · next hk => exact fun _ => ⟨[t], rfl, .none ⟨t, hk⟩, rfl, rfl, rfl⟩
    · next hk =>
      refine (((reads_varDeclaration hE ts).map some).cons t).mono fun a used rest log => ?_
      rintro ⟨_, rfl, _, rfl, hv⟩
      obtain ⟨v, rfl, htokens, rfl⟩ := hv ⟨t, hk⟩
      exact ⟨.declare v, rfl, htokens.symm, rfl⟩
    · exact hexpr (t :: ts)

theorem reads_exprBefore (kind : Kind) : Reads (exprBefore kind expression) fun a used _ log =>
    ∃ o : Option (Expression .assignment), a = o.map Expression.tree ∧ used = optionalTokens o ∧
      log = optionalFaults o := by
  have hsome : ∀ ts, Meets ts ((expression ts).map some) fun a used _ log =>
      ∃ o : Option (Expression .assignment), a = o.map Expression.tree ∧ used = optionalTokens o ∧
        log = optionalFaults o := by
    intro ts
    refine ((hE ts).map some).mono fun a used rest log => ?_
    rintro ⟨_, rfl, e, rfl, rfl, rfl⟩
    exact ⟨some e, rfl, rfl, rfl⟩
  intro ts
  cases ts with
  | nil => exact hsome []
  | cons t ts =>
    rw [exprBefore]
    split
    · exact fun _ => ⟨[], rfl, none, rfl, rfl, rfl⟩
    · exact hsome (t :: ts)

include hS

theorem reads_forLoop : Reads (forLoop expression statement) fun a used rest log =>
    ∀ forKw : Terminal (.keyword .forKw), DerivedStatement a (forKw.1 :: used) rest log := by
  intro ts
  refine (Reads.expect_bind (by decide) <| (reads_loopInitial hE).bind fun i =>
    (reads_exprBefore hE _).bind fun c => Reads.expect_bind (by decide) <|
    (reads_exprBefore hE _).bind fun n => Reads.expect_bind (by decide) <|
    hS.bind_pure (countingLoop i c n)) ts |>.mono fun a used rest log => ?_
  rintro ⟨lparen, _, hl, rfl, _, _, _, _, _, rfl, rfl, ⟨i, rfl, rfl, rfl⟩,
    _, _, _, _, _, rfl, rfl, ⟨c, rfl, rfl, rfl⟩, semicolon, _, hs, rfl,
    _, _, _, _, _, rfl, rfl, ⟨n, rfl, rfl, rfl⟩, rparen, _, hr, rfl,
    _, rfl, body, rfl, rfl, rfl, hbody, hopen⟩ forKw
  exact ⟨.forLoop forKw ⟨⟨lparen, hl⟩, i, c, ⟨semicolon, hs⟩, n, ⟨rparen, hr⟩⟩ body,
    Header.tree_eq_countingLoop _ _, by simp [Statement.tokens, Header.tokens],
    by simp [Statement.faults, Header.faults], hbody, hopen⟩

end Loops

/-! ### The knot -/

/-- **A statement that is read has a derivation.** -/
theorem reads_statement (bound : Nat) : Reads (statement bound) DerivedStatement := by
  induction bound with
  | zero => exact fun ts => meets_fail (by decide) ts _
  | succ bound ih =>
    have hE := reads_expression bound
    intro ts
    cases ts with
    | nil => exact meets_fail (by decide) _ _
    | cons t ts =>
      rw [statement]
      split
      · next hk =>
        refine ((reads_conditional hE ih ts).cons t).mono fun a used rest log => ?_
        rintro ⟨_, rfl, h⟩
        exact h ⟨t, hk⟩
      · next hk =>
        refine ((reads_printStatement hE ts).cons t).mono fun a used rest log => ?_
        rintro ⟨_, rfl, e, semicolon, rfl, rfl, rfl⟩
        exact ⟨.print ⟨t, hk⟩ e semicolon, rfl, rfl, rfl, trivial, fun h => nomatch h⟩
      · next hk =>
        refine ((reads_block hE ih bound ts).cons t).mono fun a used rest log => ?_
        rintro ⟨_, rfl, ds, rbrace, rfl, rfl, rfl, hnear⟩
        exact ⟨.block ⟨t, hk⟩ ds rbrace, rfl, rfl, rfl, hnear, fun h => nomatch h⟩
      · next hk =>
        refine ((reads_whileLoop hE ih ts).cons t).mono fun a used rest log => ?_
        rintro ⟨_, rfl, h⟩
        exact h ⟨t, hk⟩
      · next hk =>
        refine ((reads_forLoop hE ih ts).cons t).mono fun a used rest log => ?_
        rintro ⟨_, rfl, h⟩
        exact h ⟨t, hk⟩
      · refine (reads_exprStatement (reads_expression (bound + 1)) (t :: ts)).mono
          fun a used rest log => ?_
        rintro ⟨e, semicolon, rfl, rfl, rfl⟩
        exact ⟨.expr e semicolon, rfl, rfl, rfl, trivial, fun h => nomatch h⟩

/-- **A program that is read without starting again has a derivation, with its `else`s near.** -/
theorem derivation_of_program {ts rest : List Token} {as : List Stmt} {log : List Failure}
    (h : program ts = ⟨.ok as, rest, log⟩) (hc : Clean log) :
    ∃ ds : List Declaration, Declaration.trees ds = as ∧ Declaration.tokensOf ds = ts ∧
      Declaration.faultsOf ds = log ∧ Declaration.AllNear ds := by
  have hreads := reads_declarations (reads_declaration (reads_expression ts.length)
    (reads_statement ts.length)) (fun _ => false) ts.length ts
  unfold program at h
  simp only at h
  rw [h] at hreads
  obtain ⟨used, hts, ds, rfl, rfl, rfl, hnear, hrest⟩ := hreads hc
  have : rest = [] := by
    cases rest with
    | nil => rfl
    | cons t rest =>
      have := hrest (Nat.le_of_eq (by rw [← hts])) t rfl
      cases this
  rw [this, List.append_nil] at hts
  exact ⟨ds, rfl, hts.symm, rfl, hnear⟩

end Parser

end Lox
