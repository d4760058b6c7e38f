import Lox.Proofs.Grammar.Basic
import Lox.Proofs.Parser.Exactness

/-!
# The shape of the trees that are read

Whatever the tokens are, and whatever errors they have, the trees that come back are well shaped.
The token of a node has a kind that belongs there; an operand binds at least as tightly as its
place asks for; and no branch and no body of a loop is a declaration.

`Yields p P` says that a parser reads nothing but what has the property `P`.  It says nothing of
failures, so it holds as well for what is read after the reader had to start again.
-/

namespace Lox

/-! ### Well-shaped trees -/

namespace Kind

/-- The operators before an operand. -/
def unaryOperators : List Kind := [.symbol .bang, .symbol .minus]

/-- The operators that may leave out their right operand. -/
def logicalOperators : List Kind := [.keyword .andKw, .keyword .orKw]

/-- The operators of equality, comparison and arithmetic. -/
def binaryOperators : List Kind :=
  [.symbol .bangEqual, .symbol .equalEqual, .symbol .greater, .symbol .greaterEqual, .symbol .less,
   .symbol .lessEqual, .symbol .minus, .symbol .plus, .symbol .slash, .symbol .star]

/-- How tightly an operator between two operands binds; other kinds do not. -/
def tightness : Kind → Nat
  | .keyword .orKw => 1
  | .keyword .andKw => 2
  | .symbol .bangEqual | .symbol .equalEqual => 3
  | .symbol .greater | .symbol .greaterEqual | .symbol .less | .symbol .lessEqual => 4
  | .symbol .minus | .symbol .plus => 5
  | .symbol .slash | .symbol .star => 6
  | _ => 0

end Kind

namespace Expr

/-- How tightly an expression binds: an assignment least of all, then operators between two
operands, then prefix operators, and most of all what needs no operator. -/
def tightness : Expr → Nat
  | .assign _ _ => 0
  | .logical _ op _ => op.kind.tightness
  | .binary _ op _ => op.kind.tightness
  | .unary _ _ => 7
  | .literal _ => 8
  | .name _ => 8
  | .grouping _ => 8

/-- The token is a name. -/
def Name (t : Token) : Prop := ∃ name, t.kind = .identifier name

/-- Every token of the expression has a kind that belongs in its place, and every operand binds
tightly enough: as tightly as the operator on its left, more tightly on its right, and like a prefix
operator or more after one.  So an assignment, which binds least, is never an operand: it is a whole
expression, or stands in parentheses, or is what is assigned. -/
def Shaped : Expr → Prop
  | .literal _ => True
  | .grouping e => e.Shaped
  | .name t => Name t
  | .assign t e => Name t ∧ e.Shaped
  | .unary op e => op.kind ∈ Kind.unaryOperators ∧ e.Shaped ∧ 7 ≤ e.tightness
  | .binary l op r => op.kind ∈ Kind.binaryOperators ∧ l.Shaped ∧ r.Shaped ∧
    op.kind.tightness ≤ l.tightness ∧ op.kind.tightness < r.tightness
  | .logical l op r => op.kind ∈ Kind.logicalOperators ∧ l.Shaped ∧ r.Shaped ∧
    op.kind.tightness ≤ l.tightness ∧ op.kind.tightness < r.tightness

end Expr

namespace Stmt

/-- The statement declares a variable. -/
def IsDeclaration : Stmt → Prop
  | .declare _ _ => True
  | _ => False

mutual

/-- All expressions of the statement are well shaped, a variable is declared by its name, and no
branch and no body of a loop is a declaration. -/
def Shaped : Stmt → Prop
  | .block body => ShapedEach body
  | .expr e => e.Shaped
  | .print e => e.Shaped
  | .declare t none => Expr.Name t
  | .declare t (some e) => Expr.Name t ∧ e.Shaped
  | .ifThen c yes => c.Shaped ∧ yes.Shaped ∧ ¬yes.IsDeclaration
  | .ifElse c yes no =>
    c.Shaped ∧ (yes.Shaped ∧ ¬yes.IsDeclaration) ∧ no.Shaped ∧ ¬no.IsDeclaration
  | .loop c body => c.Shaped ∧ body.Shaped ∧ ¬body.IsDeclaration

/-- All of the statements are well shaped. -/
def ShapedEach : List Stmt → Prop
  | [] => True
  | s :: ss => s.Shaped ∧ ShapedEach ss

end

theorem shapedEach_iff {ss : List Stmt} : ShapedEach ss ↔ ∀ s ∈ ss, s.Shaped := by
  induction ss with
  | nil => simp [ShapedEach]
  | cons s ss ih => rw [ShapedEach, ih, List.forall_mem_cons]

end Stmt

/-! ### What a parser reads -/

/-- What was read, if anything was, has the property. -/
def Reply.Holds {α : Type} (P : α → Prop) (r : Reply α) : Prop :=
  match r.result with
  | .ok a => P a
  | .error _ => True

theorem Reply.Holds.mono {α : Type} {P P' : α → Prop} {r : Reply α} (h : r.Holds P)
    (hP : ∀ a, P a → P' a) : r.Holds P' := by
  match r, h with
  | ⟨.ok a, _, _⟩, h => exact hP a h
  | ⟨.error _, _, _⟩, _ => trivial

namespace Parser

variable {α β : Type} {P : α → Prop} {Q : β → Prop}

/-- Everything that the parser reads has the property. -/
def Yields (p : Parser α) (P : α → Prop) : Prop := ∀ ts, (p ts).Holds P

theorem yields_pure {a : α} (h : P a) : Yields (Pure.pure a) P := fun _ => h

theorem yields_true (p : Parser α) : Yields p fun _ => True := by
  intro ts
  unfold Reply.Holds
  split
  · trivial
  · trivial

theorem holds_fail (fault : GrammarFault) (ts : List Token) : (fail fault ts).Holds P := trivial

theorem holds_map {r : Reply α} {f : α → β} (h : r.Holds P) (hf : ∀ a, P a → Q (f a)) :
    (r.map f).Holds Q := by
  match r, h with
  | ⟨.ok a, _, _⟩, h => exact hf a h
  | ⟨.error _, _, _⟩, _ => trivial

theorem Yields.bind {p : Parser α} {f : α → Parser β} (hp : Yields p P)
    (hf : ∀ a, P a → Yields (f a) Q) : Yields (p >>= f) Q := by
  intro ts
  have h := hp ts
  show (Parser.bind p f ts).Holds Q
  unfold Parser.bind
  match p ts, h with
  | ⟨.error _, _, _⟩, _ => trivial
  | ⟨.ok a, rest, _⟩, h => exact hf a h rest

/-- A step whose result does not matter. -/
theorem Yields.after (p : Parser α) {f : α → Parser β} (hf : ∀ a, Yields (f a) Q) :
    Yields (p >>= f) Q :=
  (yields_true p).bind fun a _ => hf a

/-! ### Expressions -/

/-- The expression is well shaped and binds at least so tightly. -/
def Tight (n : Nat) (e : Expr) : Prop := e.Shaped ∧ n ≤ e.tightness

theorem Tight.mono {m n : Nat} {e : Expr} (h : Tight n e) (hmn : m ≤ n) : Tight m e :=
  ⟨h.1, Nat.le_trans hmn h.2⟩

section Expressions

variable {expression : Parser Expr} (hE : Yields expression Expr.Shaped)

include hE

theorem yields_primary : Yields (primary expression) (Tight 8) := by
  intro ts
  cases ts with
  | nil => exact holds_fail _ _
  | cons t ts =>
    rw [primary]
    split
    · next name hname => exact ⟨⟨name, hname⟩, Nat.le_refl 8⟩
    · have hgrouping : ∀ e, Expr.Shaped e → Tight 8 (.grouping e) := fun e he => ⟨he, Nat.le_refl 8⟩
      exact (hE.bind fun e he => Yields.after _ fun _ => yields_pure (hgrouping e he)) ts
    · split
      · exact ⟨trivial, Nat.le_refl 8⟩
      · exact holds_fail _ _

theorem yields_unary : Yields (unary expression) (Tight 7) := by
  have base : ∀ ts, (primary expression ts).Holds (Tight 7) :=
    fun ts => (yields_primary hE ts).mono fun e he => he.mono (Nat.le_succ 7)
  intro ts
  induction ts with
  | nil => exact base []
  | cons t ts ih =>
    rw [unary]
    split
    · next hu =>
      refine holds_map ih fun e he => ⟨⟨?_, he⟩, Nat.le_refl 7⟩
      exact Grammar.mem_prefixes_iff.mpr hu
    · exact base (t :: ts)

end Expressions

theorem tightness_of_of? {k : Kind} {l : Level} (h : Level.of? k = some l) :
    k.tightness = l.tightness + 1 := by
  unfold Level.of? at h
  split at h <;> cases h <;> rfl

theorem mem_binaryOperators {l : Level} (hor : l ≠ .or) (hand : l ≠ .and) :
    ∀ k ∈ Grammar.operators l, k ∈ Kind.binaryOperators := by
  cases l with
  | or => exact absurd rfl hor
  | and => exact absurd rfl hand
  | _ => decide

/-- The node of an operator is well shaped between operands that bind tightly enough. -/
theorem tight_node {l : Level} {t : Token} (ht : Level.of? t.kind = some l) {left right : Expr}
    (hleft : Tight (l.tightness + 1) left) (hright : Tight (l.tightness + 2) right) :
    Tight (l.tightness + 1) (l.node left t right) := by
  have hk := tightness_of_of? ht
  have hmem := Grammar.mem_operators_iff.mpr ht
  have hl : t.kind.tightness ≤ left.tightness := hk ▸ hleft.2
  have hr : t.kind.tightness < right.tightness := hk ▸ hright.2
  cases l with
  | or => exact ⟨⟨List.mem_cons_of_mem _ hmem, hleft.1, hright.1, hl, hr⟩, Nat.le_of_eq hk.symm⟩
  | and =>
    exact ⟨⟨List.mem_append_left [Kind.keyword .orKw] hmem, hleft.1, hright.1, hl, hr⟩,
      Nat.le_of_eq hk.symm⟩
  | equality | comparison | term | factor =>
    have hop : t.kind ∈ Kind.binaryOperators := mem_binaryOperators (by decide) (by decide) _ hmem
    exact ⟨⟨hop, hleft.1, hright.1, hl, hr⟩, Nat.le_of_eq hk.symm⟩

theorem yields_operators {l : Level} {operand : Parser Expr}
    (h : Yields operand (Tight (l.tightness + 2))) (bound : Nat) {left : Expr}
    (hleft : Tight (l.tightness + 1) left) :
    Yields (operators l operand bound left) (Tight (l.tightness + 1)) := by
  induction bound generalizing left with
  | zero => exact fun _ => hleft
  | succ bound ih =>
    intro ts
    cases ts with
    | nil => exact hleft
    | cons t ts =>
      rw [operators]
      split
      · next ht => exact (h.bind fun right hright => ih (tight_node ht hleft hright)) ts
      · exact hleft

theorem yields_leveled {l : Level} {operand : Parser Expr} (bound : Nat)
    (h : Yields operand (Tight (l.tightness + 2))) :
    Yields (leveled bound l operand) (Tight (l.tightness + 1)) :=
  h.bind fun _ hleft => yields_operators h bound (hleft.mono (Nat.le_succ _))

theorem yields_disjunction {expression : Parser Expr} (bound : Nat)
    (hE : Yields expression Expr.Shaped) : Yields (disjunction bound expression) (Tight 1) :=
  yields_leveled (l := .or) bound <| yields_leveled (l := .and) bound <|
    yields_leveled (l := .equality) bound <| yields_leveled (l := .comparison) bound <|
    yields_leveled (l := .term) bound <| yields_leveled (l := .factor) bound <| yields_unary hE

/-- What is assigned to anything but a name is left out, and the left side is well shaped. -/
theorem yields_assignment {left value : Expr} (equals : Token) (hleft : left.Shaped)
    (hvalue : value.Shaped) : Yields (assignment left equals value) Expr.Shaped := by
  unfold assignment
  split
  · exact yields_pure ⟨hleft, hvalue⟩
  · exact Yields.after _ fun _ => yields_pure hleft

theorem yields_assigned {expression : Parser Expr} (hE : Yields expression Expr.Shaped)
    {left : Expr} (hleft : left.Shaped) : Yields (assigned expression left) Expr.Shaped := by
  intro ts
  cases ts with
  | nil => exact hleft
  | cons t ts =>
    rw [assigned]
    split
    · exact (hE.bind fun value hvalue => yields_assignment t hleft hvalue) ts
    · exact hleft

/-- **Expressions that are read are well shaped.** -/
theorem yields_expression (bound : Nat) : Yields (expression bound) Expr.Shaped := by
  induction bound with
  | zero => exact fun ts => holds_fail _ ts
  | succ bound ih =>
    exact (yields_disjunction bound ih).bind fun left hleft => yields_assigned ih hleft.1

/-! ### Declarations -/

theorem Yields.recovering {p : Parser α} (h : Yields p P) :
    Yields (recovering p) fun o => ∀ a ∈ o, P a := by
  intro ts
  have hp := h ts
  unfold Parser.recovering
  match p ts, hp with
  | ⟨.ok a, _, _⟩, hp =>
    intro b hb
    obtain rfl := Option.some.inj hb
    exact hp
  | ⟨.error _, _, _⟩, _ => exact fun a ha => nomatch ha

section Statements

variable {expression : Parser Expr} (hE : Yields expression Expr.Shaped)

include hE

theorem yields_initialValue :
    Yields (varDeclaration.initialValue expression) fun o => ∀ e ∈ o, Expr.Shaped e := by
  intro ts
  cases ts with
  | nil => exact fun e he => nomatch he
  | cons t ts =>
    rw [varDeclaration.initialValue]
    split
    · refine holds_map (hE ts) fun e he e' he' => ?_
      obtain rfl := Option.some.inj he'
      exact he
    · exact fun e he => nomatch he

theorem yields_varDeclaration : Yields (varDeclaration expression) Stmt.Shaped := by
  intro ts
  cases ts with
  | nil => exact holds_fail _ _
  | cons t ts =>
    rw [varDeclaration]
    split
    · next name hname =>
      refine ((yields_initialValue hE).bind fun initial hinitial => Yields.after _ fun _ =>
        yields_pure ?_) ts
      cases initial with
      | none => exact ⟨name, hname⟩
      | some e => exact ⟨⟨name, hname⟩, hinitial e rfl⟩
    · exact holds_fail _ _

/-- The statement is well shaped and may be a branch or the body of a loop. -/
def ShapedStatement (s : Stmt) : Prop := s.Shaped ∧ ¬s.IsDeclaration

omit hE in
theorem shapedStatement_expr {e : Expr} (h : e.Shaped) : ShapedStatement (.expr e) := ⟨h, id⟩

theorem yields_exprStatement : Yields (exprStatement expression) ShapedStatement :=
  hE.bind fun _ he => Yields.after _ fun _ => yields_pure (shapedStatement_expr he)

theorem yields_printStatement : Yields (printStatement expression) ShapedStatement :=
  hE.bind fun _ he => Yields.after _ fun _ => yields_pure ⟨he, id⟩

theorem yields_loopInitial :
    Yields (loopInitial expression) fun o => ∀ s ∈ o, Stmt.Shaped s := by
  have hsome : ∀ s : Stmt, s.Shaped → ∀ s' ∈ some s, s'.Shaped := by
    rintro s hs _ ⟨⟩
    exact hs
  have hexpr : ∀ ts,
      ((exprStatement expression ts).map some).Holds fun o => ∀ s ∈ o, Stmt.Shaped s := fun ts =>
    holds_map (yields_exprStatement hE ts) fun s hs => hsome s hs.1
  intro ts
  cases ts with
  | nil => exact hexpr []
  | cons t ts =>
    rw [loopInitial]
    split
    · intro s hs
      cases hs
    · exact holds_map (yields_varDeclaration hE ts) hsome
    · exact hexpr (t :: ts)

theorem yields_exprBefore (kind : Kind) :
    Yields (exprBefore kind expression) fun o => ∀ e ∈ o, Expr.Shaped e := by
  have hsome : ∀ ts, ((expression ts).map some).Holds fun o => ∀ e ∈ o, Expr.Shaped e := by
    refine fun ts => holds_map (hE ts) ?_
    rintro e he _ ⟨⟩
    exact he
  intro ts
  cases ts with
  | nil => exact hsome []
  | cons t ts =>
    rw [exprBefore]
    split
    · intro e he
      cases he
    · exact hsome (t :: ts)

omit hE in
/-- A counting loop stands for a well-shaped statement: what precedes the loop stands in a block,
and so does the body that an increment follows. -/
theorem shapedStatement_countingLoop {initial : Option Stmt} {condition increment : Option Expr}
    {body : Stmt} (hinitial : ∀ s ∈ initial, s.Shaped) (hcondition : ∀ e ∈ condition, e.Shaped)
    (hincrement : ∀ e ∈ increment, e.Shaped) (hbody : ShapedStatement body) :
    ShapedStatement (countingLoop initial condition increment body) := by
  have hc : (condition.getD (.literal (.bool true))).Shaped := by
    cases condition with
    | none => trivial
    | some e => exact hcondition e rfl
  have hloop : ∀ round, ShapedStatement round →
      ShapedStatement (countingLoop initial condition none round) := by
    intro round hround
    cases initial with
    | none => exact ⟨⟨hc, hround⟩, id⟩
    | some s => exact ⟨⟨hinitial s rfl, ⟨hc, hround⟩, trivial⟩, id⟩
  cases increment with
  | none => exact hloop body hbody
  | some e => exact hloop (.block [body, .expr e]) ⟨⟨hbody.1, hincrement e rfl, trivial⟩, id⟩

variable {statement : Parser Stmt} (hS : Yields statement ShapedStatement)

include hS

/-- What is given up leaves nothing, and what is not is well shaped. -/
theorem yields_declaration :
    Yields (declaration expression statement) fun o => ∀ s ∈ o, Stmt.Shaped s := by
  have hstatement : ∀ ts, (statement ts).Holds Stmt.Shaped :=
    fun ts => (hS ts).mono fun s hs => hs.1
  refine Yields.recovering fun ts => ?_
  cases ts with
  | nil => exact hstatement []
  | cons t ts =>
    dsimp only
    split
    · exact yields_varDeclaration hE ts
    · exact hstatement (t :: ts)

omit hE in
theorem yields_otherwise {condition : Expr} {yes : Stmt} (hc : condition.Shaped)
    (hyes : ShapedStatement yes) : Yields (otherwise statement condition yes) ShapedStatement := by
  intro ts
  cases ts with
  | nil => exact ⟨⟨hc, hyes⟩, id⟩
  | cons t ts =>
    rw [otherwise]
    split
    · exact holds_map (hS ts) fun no hno => ⟨⟨hc, hyes, hno⟩, id⟩
    · exact ⟨⟨hc, hyes⟩, id⟩

theorem yields_conditional : Yields (conditional expression statement) ShapedStatement :=
  Yields.after _ fun _ => hE.bind fun _ hc => Yields.after _ fun _ => hS.bind fun _ hyes =>
    yields_otherwise hS hc hyes

theorem yields_whileLoop : Yields (whileLoop expression statement) ShapedStatement :=
  Yields.after _ fun _ => hE.bind fun _ hc => Yields.after _ fun _ => hS.bind fun _ hbody =>
    yields_pure ⟨⟨hc, hbody⟩, id⟩

theorem yields_forLoop : Yields (forLoop expression statement) ShapedStatement :=
  Yields.after _ fun _ => (yields_loopInitial hE).bind fun _ hinitial =>
    (yields_exprBefore hE _).bind fun _ hcondition => Yields.after _ fun _ =>
    (yields_exprBefore hE _).bind fun _ hincrement => Yields.after _ fun _ =>
    hS.bind fun _ hbody =>
      yields_pure (shapedStatement_countingLoop hinitial hcondition hincrement hbody)

end Statements

/-! ### Lists of declarations -/

theorem yields_declarations {declare : Parser (Option Stmt)}
    (h : Yields declare fun o => ∀ s ∈ o, Stmt.Shaped s) (stops : Kind → Bool) (bound : Nat) :
    Yields (declarations stops declare bound) fun ss => ∀ s ∈ ss, s.Shaped := by
  induction bound with
  | zero => exact fun _ s hs => nomatch hs
  | succ bound ih =>
    intro ts
    cases ts with
    | nil => exact fun s hs => nomatch hs
    | cons t ts =>
      rw [declarations]
      split
      · exact fun s hs => nomatch hs
      · refine (h.bind fun first hfirst => ih.bind fun others hothers => yields_pure ?_) (t :: ts)
        intro s hs
        obtain hs | hs := List.mem_append.mp hs
        · exact hfirst s (Option.mem_toList.mp hs)
        · exact hothers s hs

theorem yields_block {declare : Parser (Option Stmt)}
    (h : Yields declare fun o => ∀ s ∈ o, Stmt.Shaped s) (bound : Nat) :
    Yields (block bound declare) ShapedStatement :=
  (yields_declarations h _ bound).bind fun _ hbody => Yields.after _ fun _ =>
    yields_pure ⟨Stmt.shapedEach_iff.mpr hbody, id⟩

/-! ### The knot -/

/-- **Statements that are read are well shaped, and are no declarations.** -/
theorem yields_statement (bound : Nat) : Yields (statement bound) ShapedStatement := by
  induction bound with
  | zero => exact fun ts => holds_fail _ ts
  | succ bound ih =>
    have hE := yields_expression bound
    intro ts
    cases ts with
    | nil => exact holds_fail _ []
    | cons t ts =>
      rw [statement]
      split
      · exact yields_conditional hE ih ts
      · exact yields_printStatement hE ts
      · exact yields_block (yields_declaration hE ih) bound ts
      · exact yields_whileLoop hE ih ts
      · exact yields_forLoop hE ih ts
      · exact yields_exprStatement (yields_expression (bound + 1)) (t :: ts)

theorem holds_program (ts : List Token) : (program ts).Holds fun ss => ∀ s ∈ ss, s.Shaped :=
  yields_declarations (yields_declaration (yields_expression _) (yields_statement _)) _ _ ts

end Parser

/-- **All statements of a program are well shaped**, whatever its tokens are. -/
theorem shaped_of_mem_parse {ts : List Token} {s : Stmt} (h : s ∈ (parse ts).statements) :
    s.Shaped := by
  obtain ⟨ss, rest, log, hprogram, hstatements, -⟩ := exists_parse_eq ts
  have hp := Parser.holds_program (Program.body ts)
  rw [hprogram] at hp
  exact hp s (hstatements ▸ h)

end Lox
