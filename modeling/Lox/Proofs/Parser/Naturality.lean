import Lox.Program
import Lox.Proofs.Relabel

/-!
# Parsing looks only at kinds

Put other tokens of the same kinds in the places of the tokens of a list: then the list is read in
the same way, and the other tokens stand in the trees, the failures and the tokens left over where
the first ones stood (`natural_program`).  So the trees that are read and the failures that are
logged have no tokens but those of the list (`mem_of_mem_tokensOf_program`,
`mem_of_mem_log_program`).
-/

namespace Lox

/-- A failure at another token. -/
def Failure.relabel (f : Token → Token) (x : Failure) : Failure := ⟨x.fault, x.found.map f⟩

/-- A reply with other tokens, and with what was read changed by `g`. -/
def Reply.relabel {α β : Type} (f : Token → Token) (g : α → β) : Reply α → Reply β
  | ⟨.ok a, rest, log⟩ => ⟨.ok (g a), rest.map f, log.map (Failure.relabel f)⟩
  | ⟨.error x, rest, log⟩ => ⟨.error (x.relabel f), rest.map f, log.map (Failure.relabel f)⟩

namespace Parser

variable {α β α' β' : Type} {f : Token → Token}

/-- Reading other tokens with `q` is reading the first ones with `p`, up to `f` and `g`. -/
def Natural (f : Token → Token) (g : α → α') (p : Parser α) (q : Parser α') : Prop :=
  ∀ ts, q (ts.map f) = (p ts).relabel f g

/-! ### Steps -/

theorem natural_pure (g : α → α') (a : α) : Natural f g (Pure.pure a) (Pure.pure (g a)) :=
  fun _ => rfl

theorem natural_fail (g : α → α') (fault : GrammarFault) :
    Natural f g (fail fault) (fail fault) := by
  intro ts
  unfold fail
  rw [List.head?_map]
  rfl

theorem natural_note (fault : GrammarFault) (t : Token) :
    Natural f id (note fault t) (note fault (f t)) :=
  fun _ => rfl

theorem Natural.bind {g : α → α'} {h : β → β'} {p : Parser α} {q : Parser α'} {k : α → Parser β}
    {k' : α' → Parser β'} (hpq : Natural f g p q) (hk : ∀ a, Natural f h (k a) (k' (g a))) :
    Natural f h (p >>= k) (q >>= k') := by
  intro ts
  show Parser.bind q k' (ts.map f) = (Parser.bind p k ts).relabel f h
  unfold Parser.bind
  rw [hpq ts]
  match p ts with
  | ⟨.error x, rest, log⟩ => rfl
  | ⟨.ok a, rest, log⟩ =>
    simp only [Reply.relabel]
    rw [hk a rest]
    match k a rest with
    | ⟨.ok b, rest, more⟩ => simp only [Reply.relabel, List.map_append]
    | ⟨.error x, rest, more⟩ => simp only [Reply.relabel, List.map_append]

theorem map_relabel {g : α → α'} {h : β → β'} {k : α → β} {k' : α' → β'} (r : Reply α)
    (hk : ∀ a, k' (g a) = h (k a)) : (r.relabel f g).map k' = (r.map k).relabel f h := by
  match r with
  | ⟨.ok a, rest, log⟩ => exact congrArg (fun b => (⟨.ok b, _, _⟩ : Reply β')) (hk a)
  | ⟨.error x, rest, log⟩ => rfl

theorem Natural.map {g : α → α'} {h : β → β'} {p : Parser α} {q : Parser α'} {k : α → β}
    {k' : α' → β'} (hpq : Natural f g p q) (ts : List Token) (hk : ∀ a, k' (g a) = h (k a)) :
    (q (ts.map f)).map k' = ((p ts).map k).relabel f h := by
  rw [hpq ts]
  exact map_relabel (p ts) hk

theorem relabel_node (level : Level) (l : Expr) (t : Token) (r : Expr) :
    (level.node l t r).relabel f = level.node (l.relabel f) (f t) (r.relabel f) := by
  cases level <;> rfl

theorem relabel_countingLoop (initial : Option Stmt) (condition increment : Option Expr)
    (body : Stmt) :
    (countingLoop initial condition increment body).relabel f =
      countingLoop (initial.map (Stmt.relabel f)) (condition.map (Expr.relabel f))
        (increment.map (Expr.relabel f)) (body.relabel f) := by
  cases initial <;> cases condition <;> cases increment <;> rfl

theorem natural_assignment (left : Expr) (equals : Token) (value : Expr) :
    Natural f (Expr.relabel f) (assignment left equals value)
      (assignment (left.relabel f) (f equals) (value.relabel f)) := by
  cases left with
  | name target => exact natural_pure _ _
  | _ => exact (natural_note _ _).bind fun _ => natural_pure (Expr.relabel f) _

section Kinds

variable (hf : ∀ t, (f t).kind = t.kind)

include hf

theorem natural_expect (kind : Kind) (fault : GrammarFault) :
    Natural f id (expect kind fault) (expect kind fault) := by
  intro ts
  cases ts with
  | nil => rfl
  | cons t ts =>
    rw [List.map_cons, expect, expect, hf]
    by_cases hk : t.kind = kind
    · rw [if_pos hk, if_pos hk]
      rfl
    · rw [if_neg hk, if_neg hk]
      exact natural_fail id fault (t :: ts)

/-! ### Expressions -/

section

variable {expression : Parser Expr} (hE : Natural f (Expr.relabel f) expression expression)

include hE

theorem natural_primary : Natural f (Expr.relabel f) (primary expression) (primary expression) := by
  intro ts
  cases ts with
  | nil => rfl
  | cons t ts =>
    rw [List.map_cons, primary, primary, hf]
    split
    · rfl
    · exact (hE.bind fun e => (natural_expect hf _ _).bind fun _ =>
        natural_pure (Expr.relabel f) (.grouping e)) ts
    · split
      · rfl
      · exact natural_fail _ _ (t :: ts)

theorem natural_unary : Natural f (Expr.relabel f) (unary expression) (unary expression) := by
  intro ts
  induction ts with
  | nil => rfl
  | cons t ts ih =>
    rw [List.map_cons, unary, unary, hf]
    by_cases ht : isUnary t.kind
    · rw [if_pos ht, if_pos ht, ih]
      exact map_relabel _ fun _ => by rfl
    · rw [if_neg ht, if_neg ht]
      exact natural_primary hf hE (t :: ts)

end

theorem natural_operators (level : Level) {operand : Parser Expr}
    (h : Natural f (Expr.relabel f) operand operand) : ∀ (bound : Nat) (left : Expr),
    Natural f (Expr.relabel f) (operators level operand bound left)
      (operators level operand bound (left.relabel f)) := by
  intro bound
  induction bound with
  | zero =>
    intro left ts
    rw [operators, operators]
    · rfl
    · nofun
    · nofun
  | succ bound ih =>
    intro left ts
    cases ts with
    | nil => rfl
    | cons t ts =>
      rw [List.map_cons, operators, operators, hf]
      by_cases ht : Level.of? t.kind = some level
      · rw [if_pos ht, if_pos ht]
        refine (h.bind fun right => ?_) ts
        rw [← relabel_node]
        exact ih (level.node left t right)
      · rw [if_neg ht, if_neg ht]
        rfl

theorem natural_leveled (bound : Nat) (level : Level) {operand : Parser Expr}
    (h : Natural f (Expr.relabel f) operand operand) :
    Natural f (Expr.relabel f) (leveled bound level operand) (leveled bound level operand) :=
  h.bind fun left => natural_operators hf level h bound left

theorem natural_disjunction (bound : Nat) {expression : Parser Expr}
    (hE : Natural f (Expr.relabel f) expression expression) :
    Natural f (Expr.relabel f) (disjunction bound expression) (disjunction bound expression) := by
  unfold disjunction
  induction Level.all with
  | nil => exact natural_unary hf hE
  | cons level levels ih => exact natural_leveled hf bound level ih

theorem natural_assigned {expression : Parser Expr}
    (hE : Natural f (Expr.relabel f) expression expression) (left : Expr) :
    Natural f (Expr.relabel f) (assigned expression left)
      (assigned expression (left.relabel f)) := by
  intro ts
  cases ts with
  | nil => rfl
  | cons t ts =>
    rw [List.map_cons, assigned, assigned, hf]
    by_cases ht : t.kind = .symbol .equal
    · rw [if_pos ht, if_pos ht]
      exact (hE.bind fun value => natural_assignment left t value) ts
    · rw [if_neg ht, if_neg ht]
      rfl

/-- **Expressions are read by the kinds of their tokens.** -/
theorem natural_expression (bound : Nat) :
    Natural f (Expr.relabel f) (expression bound) (expression bound) := by
  induction bound with
  | zero => exact natural_fail _ _
  | succ bound ih =>
    exact (natural_disjunction hf bound ih).bind fun left => natural_assigned hf ih left

/-! ### Declarations -/

theorem map_skipStatement (ts : List Token) :
    skipStatement (ts.map f) = (skipStatement ts).map f := by
  fun_induction skipStatement ts with
  | case1 => rfl
  | case2 t => rfl
  | case3 t next ts h =>
    rw [List.map_cons, List.map_cons, skipStatement, hf, hf, if_pos h]
  | case4 t next ts h ih =>
    rw [List.map_cons, List.map_cons, skipStatement, hf, hf, if_neg h]
    exact ih

theorem Natural.recovering {g : α → α'} {p : Parser α} {q : Parser α'} (hpq : Natural f g p q) :
    Natural f (Option.map g) (recovering p) (recovering q) := by
  intro ts
  unfold Parser.recovering
  rw [hpq ts]
  match p ts with
  | ⟨.ok a, rest, log⟩ => rfl
  | ⟨.error x, rest, log⟩ =>
    simp only [Reply.relabel, map_skipStatement hf, List.map_append, List.map_cons, List.map_nil,
      Option.map_none]

section Statements

variable {expression : Parser Expr} (hE : Natural f (Expr.relabel f) expression expression)

include hE

theorem natural_initialValue : Natural f (Option.map (Expr.relabel f))
    (varDeclaration.initialValue expression) (varDeclaration.initialValue expression) := by
  intro ts
  cases ts with
  | nil => rfl
  | cons t ts =>
    rw [List.map_cons, varDeclaration.initialValue, varDeclaration.initialValue, hf]
    by_cases ht : t.kind = .symbol .equal
    · rw [if_pos ht, if_pos ht]
      exact hE.map ts fun _ => by rfl
    · rw [if_neg ht, if_neg ht]
      rfl

theorem natural_varDeclaration :
    Natural f (Stmt.relabel f) (varDeclaration expression) (varDeclaration expression) := by
  intro ts
  cases ts with
  | nil => rfl
  | cons t ts =>
    rw [List.map_cons, varDeclaration, varDeclaration, hf]
    split
    · refine ((natural_initialValue hf hE).bind fun initial =>
        (natural_expect hf _ _).bind fun _ => ?_) ts
      have hdeclare : (Stmt.declare t initial).relabel f =
          .declare (f t) (initial.map (Expr.relabel f)) := by
        cases initial <;> rfl
      rw [← hdeclare]
      exact natural_pure _ _
    · exact natural_fail _ _ (t :: ts)

theorem natural_exprStatement :
    Natural f (Stmt.relabel f) (exprStatement expression) (exprStatement expression) :=
  hE.bind fun e => (natural_expect hf _ _).bind fun _ => natural_pure (Stmt.relabel f) (.expr e)

theorem natural_printStatement :
    Natural f (Stmt.relabel f) (printStatement expression) (printStatement expression) :=
  hE.bind fun e => (natural_expect hf _ _).bind fun _ => natural_pure (Stmt.relabel f) (.print e)

theorem natural_loopInitial :
    Natural f (Option.map (Stmt.relabel f)) (loopInitial expression) (loopInitial expression) := by
  have hsome : ∀ ts, (exprStatement expression (ts.map f)).map some =
      ((exprStatement expression ts).map some).relabel f (Option.map (Stmt.relabel f)) :=
    fun ts => (natural_exprStatement hf hE).map ts fun _ => by rfl
  intro ts
  cases ts with
  | nil => exact hsome []
  | cons t ts =>
    rw [List.map_cons, loopInitial, loopInitial, hf]
    split
    · rfl
    · exact (natural_varDeclaration hf hE).map ts fun _ => by rfl
    · exact hsome (t :: ts)

theorem natural_exprBefore (kind : Kind) : Natural f (Option.map (Expr.relabel f))
    (exprBefore kind expression) (exprBefore kind expression) := by
  have hsome : ∀ ts, (expression (ts.map f)).map some =
      ((expression ts).map some).relabel f (Option.map (Expr.relabel f)) :=
    fun ts => hE.map ts fun _ => by rfl
  intro ts
  cases ts with
  | nil => exact hsome []
  | cons t ts =>
    rw [List.map_cons, exprBefore, exprBefore, hf]
    by_cases ht : t.kind = kind
    · rw [if_pos ht, if_pos ht]
      rfl
    · rw [if_neg ht, if_neg ht]
      exact hsome (t :: ts)

variable {statement : Parser Stmt} (hS : Natural f (Stmt.relabel f) statement statement)

include hS

theorem natural_declaration : Natural f (Option.map (Stmt.relabel f))
    (declaration expression statement) (declaration expression statement) := by
  refine Natural.recovering hf fun ts => ?_
  cases ts with
  | nil => exact hS []
  | cons t ts =>
    simp only [List.map_cons, hf]
    by_cases ht : t.kind = .keyword .varKw
    · rw [if_pos ht, if_pos ht]
      exact natural_varDeclaration hf hE ts
    · rw [if_neg ht, if_neg ht]
      exact hS (t :: ts)

end Statements

theorem natural_declarations (stops : Kind → Bool) {declare : Parser (Option Stmt)}
    (h : Natural f (Option.map (Stmt.relabel f)) declare declare) (bound : Nat) :
    Natural f (Stmt.relabelEach f) (declarations stops declare bound)
      (declarations stops declare bound) := by
  induction bound with
  | zero =>
    intro ts
    rw [declarations, declarations]
    · rfl
    · nofun
    · nofun
  | succ bound ih =>
    intro ts
    cases ts with
    | nil => rfl
    | cons t ts =>
      rw [List.map_cons, declarations, declarations, hf]
      by_cases ht : stops t.kind
      · rw [if_pos ht, if_pos ht]
        rfl
      · rw [if_neg ht, if_neg ht]
        refine (h.bind fun first => ih.bind fun others => ?_) (t :: ts)
        rw [← Stmt.relabelEach_toList, ← Stmt.relabelEach_append]
        exact natural_pure _ _

/-! ### Statements -/

section

variable {expression : Parser Expr} (hE : Natural f (Expr.relabel f) expression expression)
  {statement : Parser Stmt} (hS : Natural f (Stmt.relabel f) statement statement)

include hE hS

theorem natural_block (bound : Nat) :
    Natural f (Stmt.relabel f) (block bound (declaration expression statement))
      (block bound (declaration expression statement)) :=
  (natural_declarations hf _ (natural_declaration hf hE hS) bound).bind fun body =>
    (natural_expect hf _ _).bind fun _ => natural_pure (Stmt.relabel f) (.block body)

omit hE in
theorem natural_otherwise (condition : Expr) (yes : Stmt) :
    Natural f (Stmt.relabel f) (otherwise statement condition yes)
      (otherwise statement (condition.relabel f) (yes.relabel f)) := by
  intro ts
  cases ts with
  | nil => rfl
  | cons t ts =>
    rw [List.map_cons, otherwise, otherwise, hf]
    by_cases ht : t.kind = .keyword .elseKw
    · rw [if_pos ht, if_pos ht]
      exact hS.map ts fun _ => by rfl
    · rw [if_neg ht, if_neg ht]
      rfl

theorem natural_conditional :
    Natural f (Stmt.relabel f) (conditional expression statement)
      (conditional expression statement) :=
  (natural_expect hf _ _).bind fun _ => hE.bind fun condition =>
    (natural_expect hf _ _).bind fun _ => hS.bind fun yes => natural_otherwise hf hS condition yes

theorem natural_whileLoop :
    Natural f (Stmt.relabel f) (whileLoop expression statement) (whileLoop expression statement) :=
  (natural_expect hf _ _).bind fun _ => hE.bind fun condition =>
    (natural_expect hf _ _).bind fun _ => hS.bind fun body =>
      natural_pure (Stmt.relabel f) (.loop condition body)

theorem natural_forLoop :
    Natural f (Stmt.relabel f) (forLoop expression statement) (forLoop expression statement) := by
  refine (natural_expect hf _ _).bind fun _ => (natural_loopInitial hf hE).bind fun initial =>
    (natural_exprBefore hf hE _).bind fun condition => (natural_expect hf _ _).bind fun _ =>
    (natural_exprBefore hf hE _).bind fun increment => (natural_expect hf _ _).bind fun _ =>
    hS.bind fun body => ?_
  rw [← relabel_countingLoop]
  exact natural_pure _ _

end

/-- **Statements are read by the kinds of their tokens.** -/
theorem natural_statement (bound : Nat) :
    Natural f (Stmt.relabel f) (statement bound) (statement bound) := by
  induction bound with
  | zero => exact natural_fail _ _
  | succ bound ih =>
    have hE := natural_expression hf bound
    intro ts
    cases ts with
    | nil => rfl
    | cons t ts =>
      rw [List.map_cons, statement, statement, hf]
      split
      · exact natural_conditional hf hE ih ts
      · exact natural_printStatement hf hE ts
      · exact natural_block hf hE ih bound ts
      · exact natural_whileLoop hf hE ih ts
      · exact natural_forLoop hf hE ih ts
      · exact natural_exprStatement hf (natural_expression hf (bound + 1)) (t :: ts)

/-- **Programs are read by the kinds of their tokens.** -/
theorem natural_program : Natural f (Stmt.relabelEach f) program program := by
  intro ts
  unfold program
  rw [List.length_map]
  exact natural_declarations hf _ (natural_declaration hf (natural_expression hf _)
    (natural_statement hf _)) _ ts

end Kinds

/-! ### Nothing but the tokens of the list -/

/-- Gives every token that is not in the list another lexeme. -/
def mark (ts : List Token) (t : Token) : Token :=
  if t ∈ ts then t else ⟨t.kind, t.lexeme ++ "x", t.line⟩

@[simp]
theorem kind_mark (ts : List Token) (t : Token) : (mark ts t).kind = t.kind := by
  unfold mark
  split
  · rfl
  · rfl

@[simp]
theorem map_mark (ts : List Token) : ts.map (mark ts) = ts := by
  conv =>
    rhs
    rw [← List.map_id ts]
  exact List.map_congr_left fun t ht => if_pos ht

theorem mem_of_mark_eq {ts : List Token} {t : Token} (h : mark ts t = t) : t ∈ ts := by
  by_cases hmem : t ∈ ts
  · exact hmem
  · have hlexeme : t.lexeme ++ "x" = t.lexeme := by
      rw [show mark ts t = _ from if_neg hmem] at h
      exact congrArg Token.lexeme h
    have hlength := congrArg String.length hlexeme
    rw [String.length_append] at hlength
    exact absurd hlength (by simp)

section

variable {ts rest : List Token} {as : List Stmt} {log : List Failure}
  (h : program ts = ⟨.ok as, rest, log⟩)

include h

/-- The list stays as it is when other tokens get another lexeme, and so does the reply. -/
theorem relabel_mark_program :
    Stmt.relabelEach (mark ts) as = as ∧ log.map (Failure.relabel (mark ts)) = log := by
  have hnatural := natural_program (kind_mark ts) ts
  rw [map_mark, h] at hnatural
  injection hnatural with hresult _ hlog
  exact ⟨(Except.ok.inj hresult).symm, hlog.symm⟩

/-- **The trees that are read have no tokens but those of the list.** -/
theorem mem_of_mem_tokensOf_program : ∀ t ∈ Stmt.tokensOf as, t ∈ ts :=
  fun t ht => mem_of_mark_eq (Stmt.eq_of_relabelEach_eq as (relabel_mark_program h).1 t ht)

/-- **The failures that are logged name no tokens but those of the list.** -/
theorem mem_of_mem_log_program {x : Failure} (hx : x ∈ log) {t : Token} (ht : x.found = some t) :
    t ∈ ts := by
  have hmap : log.map (Failure.relabel (mark ts)) = log.map id := by
    rw [(relabel_mark_program h).2, List.map_id]
  have hfixed : x.relabel (mark ts) = x := List.map_inj_left.mp hmap x hx
  have hfound : x.found.map (mark ts) = x.found := congrArg Failure.found hfixed
  rw [ht] at hfound
  exact mem_of_mark_eq (Option.some.inj hfound)

end

end Parser

end Lox
