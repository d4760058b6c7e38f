import Lox.Proofs.Grammar
import Lox.Proofs.Parser.Calculus

/-!
# Derivations: first facts

The kinds of tokens that the grammar names are those that the parsers look for; a derivation is
proper exactly when it has no faults; a tree is a bare name only if the derivation is one; and an
expression, a statement and a declaration each begin with a token of certain kinds.
-/

namespace Lox

namespace Grammar

/-! ### Kinds of tokens -/

theorem of?_of_mem_operators (l : Level) : ∀ k ∈ operators l, Level.of? k = some l := by
  cases l <;> decide

theorem mem_operators_iff {l : Level} {k : Kind} : k ∈ operators l ↔ Level.of? k = some l := by
  constructor
  · exact of?_of_mem_operators l k
  · intro h
    unfold Level.of? at h
    split at h <;> cases h <;> simp [operators]

theorem isUnary_of_mem_prefixes : ∀ k ∈ prefixes, Parser.isUnary k = true := by decide

theorem mem_prefixes_iff {k : Kind} : k ∈ prefixes ↔ Parser.isUnary k = true := by
  constructor
  · exact isUnary_of_mem_prefixes k
  · intro h
    unfold Parser.isUnary at h
    split at h
    · simp [prefixes]
    · simp [prefixes]
    · cases h

theorem denotes_iff {k : Kind} {v : Value} : Denotes k v ↔ Parser.literal? k = some v := by
  constructor
  · rintro ⟨⟩ <;> rfl
  · intro h
    unfold Parser.literal? at h
    split at h <;> cases h <;> constructor

namespace Expression

/-! ### Trees -/

theorem tree_operation {l : Level} (left : Expression (.level l))
    (op : { t : Token // t.kind ∈ operators l }) (right : Expression (tighter l)) :
    (operation left op right).tree = l.node left.tree op.1 right.tree := by
  cases l <;> rfl

theorem tree_of_name? {r : Rank} (e : Expression r) {t : Token} (h : e.name? = some t) :
    e.tree = .name t := by
  induction e with
  | plain e ih => exact ih h
  | operand e ih => exact ih h
  | primary e ih => exact ih h
  | name t => cases h; rfl
  | _ => cases h

theorem name?_of_tree {r : Rank} (e : Expression r) {t : Token} (h : e.tree = .name t) :
    e.name? = some t := by
  induction e with
  | plain e ih => exact ih h
  | operand e ih => exact ih h
  | primary e ih => exact ih h
  | name t => cases h; rfl
  | assign left equals value ihl ihv =>
    unfold tree at h
    split at h
    · cases h
    · next hn => rw [ihl h] at hn; cases hn
  | operation left op right ihl ihr =>
    rw [tree_operation] at h
    unfold Level.node at h
    split at h <;> cases h
  | unary op right ih => cases h
  | literal t v hv => cases h
  | grouping lparen inner rparen ih => cases h

/-! ### Faults -/

theorem faults_of_name? {r : Rank} (e : Expression r) {t : Token} (h : e.name? = some t) :
    e.faults = [] := by
  induction e with
  | plain e ih => exact ih h
  | operand e ih => exact ih h
  | primary e ih => exact ih h
  | name t => rfl
  | _ => cases h

/-- **An expression is proper exactly when it has no faults.** -/
theorem faults_eq_nil_iff {r : Rank} (e : Expression r) : e.faults = [] ↔ e.Proper := by
  induction e with
  | plain e ih => exact ih
  | assign left equals value ihl ihv =>
    simp only [faults, Proper, List.append_eq_nil_iff]
    cases hn : left.name? with
    | none => simp
    | some t => simp [left.faults_of_name? hn, ihv]
  | operand e ih => exact ih
  | operation left op right ihl ihr => simp only [faults, Proper, List.append_eq_nil_iff, ihl, ihr]
  | primary e ih => exact ih
  | unary op right ih => exact ih
  | literal t v h => simp [faults, Proper]
  | name t => simp [faults, Proper]
  | grouping lparen inner rparen ih => exact ih

end Expression

/-- The tree of a counting loop is what the parser makes of its parts. -/
theorem Header.tree_eq_countingLoop (h : Header) (body : Stmt) :
    h.tree body = Parser.countingLoop h.initial.tree (h.condition.map Expression.tree)
      (h.increment.map Expression.tree) body := by
  unfold Parser.countingLoop Header.tree Header.loopTree Header.roundTree
  cases h.initial.tree <;> cases h.condition <;> cases h.increment <;> rfl

theorem optionalFaults_eq_nil_iff (o : Option (Expression .assignment)) :
    optionalFaults o = [] ↔ ∀ e ∈ o, e.Proper := by
  cases o with
  | none => simp [optionalFaults]
  | some e => simp [optionalFaults, e.faults_eq_nil_iff]

theorem Variable.faults_eq_nil_iff (v : Variable) : v.faults = [] ↔ v.Proper := by
  rw [Variable.faults, optionalFaults_eq_nil_iff, Variable.Proper]
  cases v.initial with
  | none => simp
  | some p => simp

theorem Initial.faults_eq_nil_iff (i : Initial) : i.faults = [] ↔ i.Proper := by
  cases i with
  | none semicolon => simp [Initial.faults, Initial.Proper]
  | declare v => exact v.faults_eq_nil_iff
  | expr e semicolon => exact e.faults_eq_nil_iff

theorem Header.faults_eq_nil_iff (h : Header) : h.faults = [] ↔ h.Proper := by
  simp only [Header.faults, Header.Proper, List.append_eq_nil_iff, h.initial.faults_eq_nil_iff,
    optionalFaults_eq_nil_iff]

mutual

theorem Statement.faults_eq_nil_iff (s : Statement) : s.faults = [] ↔ s.Proper := by
  cases s with
  | expr e semicolon => exact e.faults_eq_nil_iff
  | print printKw e semicolon => exact e.faults_eq_nil_iff
  | block lbrace body rbrace => exact Declaration.faultsOf_eq_nil_iff body
  | ifThen ifKw c yes =>
    simp only [Statement.faults, Statement.Proper, List.append_eq_nil_iff,
      c.expr.faults_eq_nil_iff, yes.faults_eq_nil_iff]
  | ifElse ifKw c yes elseKw no =>
    simp only [Statement.faults, Statement.Proper, List.append_eq_nil_iff,
      c.expr.faults_eq_nil_iff, yes.faults_eq_nil_iff, no.faults_eq_nil_iff]
  | whileLoop whileKw c body =>
    simp only [Statement.faults, Statement.Proper, List.append_eq_nil_iff,
      c.expr.faults_eq_nil_iff, body.faults_eq_nil_iff]
  | forLoop forKw header body =>
    simp only [Statement.faults, Statement.Proper, List.append_eq_nil_iff,
      header.faults_eq_nil_iff, body.faults_eq_nil_iff]

theorem Declaration.faults_eq_nil_iff (d : Declaration) : d.faults = [] ↔ d.Proper := by
  cases d with
  | declare v => exact v.faults_eq_nil_iff
  | statement s => exact s.faults_eq_nil_iff

/-- **Declarations are proper exactly when they have no faults.** -/
theorem Declaration.faultsOf_eq_nil_iff (ds : List Declaration) :
    Declaration.faultsOf ds = [] ↔ Declaration.AllProper ds := by
  cases ds with
  | nil => simp [Declaration.faultsOf, Declaration.AllProper]
  | cons d ds =>
    simp only [Declaration.faultsOf, Declaration.AllProper, List.append_eq_nil_iff,
      d.faults_eq_nil_iff, Declaration.faultsOf_eq_nil_iff ds]

end

/-! ### First tokens -/

/-- No `else` comes next. -/
def Elseless (rest : List Token) : Prop := ∀ t ∈ rest.head?, t.kind ≠ .keyword .elseKw

/-- Whether an expression may begin with a token of the given kind. -/
def beginsExpression : Kind → Bool
  | .symbol .bang | .symbol .minus | .symbol .leftParen => true
  | .keyword .falseKw | .keyword .trueKw | .keyword .nilKw => true
  | .identifier _ | .string _ | .number _ => true
  | _ => false

/-- Whether a statement may begin with a token of the given kind. -/
def beginsStatement : Kind → Bool
  | .keyword .ifKw | .keyword .printKw | .keyword .whileKw | .keyword .forKw => true
  | .symbol .leftBrace => true
  | k => beginsExpression k

theorem Expression.exists_first {r : Rank} (e : Expression r) :
    ∃ t ts, e.tokens = t :: ts ∧ beginsExpression t.kind = true := by
  induction e with
  | plain e ih => exact ih
  | assign left equals value ihl ihv =>
    obtain ⟨t, ts, ht, hb⟩ := ihl
    exact ⟨t, ts ++ equals.1 :: value.tokens, by rw [tokens, ht, List.cons_append], hb⟩
  | operand e ih => exact ih
  | operation left op right ihl ihr =>
    obtain ⟨t, ts, ht, hb⟩ := ihl
    exact ⟨t, ts ++ op.1 :: right.tokens, by rw [tokens, ht, List.cons_append], hb⟩
  | primary e ih => exact ih
  | unary op right ih =>
    refine ⟨op.1, right.tokens, rfl, ?_⟩
    obtain h | h : op.1.kind = .symbol .bang ∨ op.1.kind = .symbol .minus := by
      simpa [prefixes] using op.2
    · rw [h]; rfl
    · rw [h]; rfl
  | literal t v h =>
    refine ⟨t, [], rfl, ?_⟩
    generalize t.kind = k at h
    cases h <;> rfl
  | name t =>
    obtain ⟨t, n, hn⟩ := t
    exact ⟨t, [], rfl, by rw [hn]; rfl⟩
  | grouping lparen inner rparen ih =>
    exact ⟨lparen.1, inner.tokens ++ [rparen.1], rfl, by rw [lparen.2]; rfl⟩

theorem Statement.exists_first (s : Statement) :
    ∃ t ts, s.tokens = t :: ts ∧ beginsStatement t.kind = true := by
  cases s with
  | expr e semicolon =>
    obtain ⟨t, ts, ht, hb⟩ := e.exists_first
    refine ⟨t, ts ++ [semicolon.1], by rw [Statement.tokens, ht, List.cons_append], ?_⟩
    unfold beginsStatement
    split <;> simp_all
  | print printKw e semicolon => exact ⟨_, _, rfl, by rw [printKw.2]; rfl⟩
  | block lbrace body rbrace => exact ⟨_, _, rfl, by rw [lbrace.2]; rfl⟩
  | ifThen ifKw c yes => exact ⟨_, _, rfl, by rw [ifKw.2]; rfl⟩
  | ifElse ifKw c yes elseKw no => exact ⟨_, _, rfl, by rw [ifKw.2]; rfl⟩
  | whileLoop whileKw c body => exact ⟨_, _, rfl, by rw [whileKw.2]; rfl⟩
  | forLoop forKw header body => exact ⟨_, _, rfl, by rw [forKw.2]; rfl⟩

/-- Only a counting loop begins with `for`. -/
theorem Statement.exists_forLoop (s : Statement) {t : Token} {ts rest : List Token}
    (ht : t.kind = .keyword .forKw) (hs : t :: ts = s.tokens ++ rest) :
    ∃ forKw header body, s = .forLoop forKw header body := by
  have hfirst : ∀ {k : Kind} (first : Terminal k) (us : List Token),
      t :: ts = first.1 :: us → k = .keyword .forKw := by
    intro k first us h
    rw [← first.2, ← (List.cons.inj h).1, ht]
  cases s with
  | expr e semicolon =>
    obtain ⟨first, us, hus, hbegins⟩ := e.exists_first
    rw [Statement.tokens, hus] at hs
    rw [← (List.cons.inj hs).1, ht] at hbegins
    cases hbegins
  | print printKw e semicolon => cases hfirst printKw _ hs
  | block lbrace body rbrace => cases hfirst lbrace _ hs
  | ifThen ifKw c yes => cases hfirst ifKw _ hs
  | ifElse ifKw c yes elseKw no => cases hfirst ifKw _ hs
  | whileLoop whileKw c body => cases hfirst whileKw _ hs
  | forLoop forKw header body => exact ⟨forKw, header, body, rfl⟩

theorem Declaration.exists_first (d : Declaration) :
    ∃ t ts, d.tokens = t :: ts ∧ (t.kind = .keyword .varKw ∨ beginsStatement t.kind = true) := by
  cases d with
  | declare v => exact ⟨_, _, rfl, .inl v.varKw.2⟩
  | statement s =>
    obtain ⟨t, ts, ht, hb⟩ := s.exists_first
    exact ⟨t, ts, ht, .inr hb⟩

end Grammar

end Lox
