import Lox.Proofs.Parser.Locality

/-!
# Giving up a simple statement

A list of tokens *closes* when it ends in a semicolon and has no other.  An expression leaves the
semicolon, so on a list that closes, without braces and with no statement inside a statement but
one, a statement is either read to the last token, or it fails with tokens left (`settled_attempt`).
Skipping from there lands right behind the semicolon, whatever follows
(`skipStatement_append_of_closes`): a statement that is given up costs its own tokens and no others
(`declaration_of_attempt_error`).
-/

namespace Lox

/-- The keywords that a statement may begin with. -/
def Kind.statementKeywords : List Kind :=
  [.keyword .classKw, .keyword .funKw, .keyword .varKw, .keyword .forKw, .keyword .ifKw,
   .keyword .whileKw, .keyword .printKw, .keyword .returnKw]

namespace Parser

variable {α β : Type} {P : Kind → Prop}

theorem startsStatement_iff (k : Kind) : startsStatement k = true ↔ k ∈ Kind.statementKeywords := by
  constructor
  · intro h
    unfold startsStatement at h
    split at h <;> simp_all [Kind.statementKeywords]
  · intro h
    simp only [Kind.statementKeywords, List.mem_cons, List.not_mem_nil, or_false] at h
    rcases h with h | h | h | h | h | h | h | h <;> rw [h] <;> rfl

/-! ### Lists that close -/

/-- The list ends in a semicolon and has no other, and all its tokens have kinds in `P`. -/
structure Closes (P : Kind → Prop) (u : List Token) : Prop where
  kinds : ∀ t ∈ u, P t.kind
  ends : ∃ front semicolon, u = front ++ [semicolon] ∧ semicolon.kind = .symbol .semicolon ∧
    ∀ t ∈ front, t.kind ≠ .symbol .semicolon

namespace Closes

variable {t : Token} {u : List Token}

theorem ne_nil (h : Closes P u) : u ≠ [] := by
  obtain ⟨front, semicolon, rfl, -, -⟩ := h.ends
  exact List.append_ne_nil_of_right_ne_nil front (List.cons_ne_nil _ _)

theorem tail (h : Closes P (t :: u)) (ht : t.kind ≠ .symbol .semicolon) : Closes P u := by
  refine ⟨fun t' ht' => h.kinds t' (List.mem_cons_of_mem t ht'), ?_⟩
  obtain ⟨front, semicolon, heq, hsemicolon, hfront⟩ := h.ends
  cases front with
  | nil =>
    obtain ⟨rfl, -⟩ := List.cons.inj heq
    exact absurd hsemicolon ht
  | cons t' front =>
    obtain ⟨-, rfl⟩ := List.cons.inj heq
    exact ⟨front, semicolon, rfl, hsemicolon, fun x hx => hfront x (List.mem_cons_of_mem t' hx)⟩

theorem eq_nil (h : Closes P (t :: u)) (ht : t.kind = .symbol .semicolon) : u = [] := by
  obtain ⟨front, semicolon, heq, -, hfront⟩ := h.ends
  cases front with
  | nil => exact (List.cons.inj heq).2
  | cons t' front =>
    obtain ⟨rfl, -⟩ := List.cons.inj heq
    exact absurd ht (hfront t List.mem_cons_self)

/-- What is left of a list that closes, closes, if anything is left. -/
theorem of_append {used rest : List Token} (h : Closes P (used ++ rest)) (hrest : rest ≠ []) :
    Closes P rest := by
  induction used with
  | nil => exact h
  | cons t used ih =>
    refine ih (h.tail fun ht => hrest ?_)
    exact (List.append_eq_nil_iff.mp (h.eq_nil ht)).2

/-- Something is left if the semicolon was not read. -/
theorem rest_ne_nil {used rest : List Token} (h : Closes P (used ++ rest))
    (hused : ∀ t ∈ used, Inner t.kind) : rest ≠ [] := by
  rintro rfl
  obtain ⟨front, semicolon, heq, hsemicolon, -⟩ := h.ends
  refine hused semicolon ?_ hsemicolon
  rw [List.append_nil] at heq
  rw [heq]
  exact List.mem_append_right front List.mem_cons_self

end Closes

/-! ### Skipping -/

/-- **Skipping lands right behind the semicolon**, if no keyword stops it before. -/
theorem skipStatement_append_of_closes {u : List Token} (h : Closes Any u)
    (hinner : ∀ t ∈ u.tail, t.kind ∉ Kind.statementKeywords) (v : List Token) :
    skipStatement (u ++ v) = v := by
  induction u with
  | nil => exact absurd rfl h.ne_nil
  | cons t u ih =>
    by_cases ht : t.kind = .symbol .semicolon
    · obtain rfl := h.eq_nil ht
      cases v with
      | nil => rfl
      | cons next v =>
        show skipStatement (t :: next :: v) = next :: v
        rw [skipStatement, if_pos]
        simp [ht]
    · have hu := h.tail ht
      cases u with
      | nil => exact absurd rfl hu.ne_nil
      | cons next u =>
        have hnext : startsStatement next.kind = false :=
          Bool.eq_false_iff.mpr fun hs =>
            hinner next List.mem_cons_self ((startsStatement_iff _).mp hs)
        rw [List.cons_append, List.cons_append, skipStatement, if_neg]
        · exact ih hu fun t' ht' => hinner t' (List.mem_cons_of_mem next ht')
        · simp [ht, hnext]

/-! ### Replies to lists that close -/

/-- Either all tokens were read, or the parser failed with tokens left. -/
def Settled (r : Reply α) : Prop :=
  match r.result with
  | .ok _ => r.rest = []
  | .error _ => r.rest ≠ []

/-- The parser leaves the semicolon of a list of at most `k` tokens. -/
def Keeps (k : Nat) (P : Kind → Prop) (p : Parser α) : Prop :=
  ∀ u : List Token, u.length ≤ k → Closes P u → Closes P (p u).rest ∧ (p u).rest.length ≤ k

/-- On a list of at most `k` tokens that closes, the parser reads all tokens or fails with some
left. -/
def Settles (k : Nat) (P : Kind → Prop) (p : Parser α) : Prop :=
  ∀ u : List Token, u.length ≤ k → Closes P u → Settled (p u)

theorem keeps_of_agrees {k least : Nat} {p q : Parser α} (h : Agrees Inner least k p q) :
    Keeps k P p := by
  intro u hu hclose
  obtain ⟨used, hused, hinner, -⟩ := (h u hu).used
  have hlen := congrArg List.length hused
  rw [List.length_append] at hlen
  rw [hused] at hclose
  exact ⟨hclose.of_append (hclose.rest_ne_nil hinner), by omega⟩

theorem keeps_expect (k : Nat) {kind : Kind} (fault : GrammarFault)
    (h : kind ≠ .symbol .semicolon) : Keeps k P (expect kind fault) :=
  keeps_of_agrees (agrees_expect k kind fault h)

theorem Keeps.settles {k : Nat} {p : Parser α} {f : α → Parser β} (hp : Keeps k P p)
    (hf : ∀ a, Settles k P (f a)) : Settles k P (p >>= f) := by
  intro u hu hclose
  obtain ⟨hrest, hlen⟩ := hp u hu hclose
  show Settled (Parser.bind p f u)
  unfold Parser.bind
  match p u, hrest, hlen with
  | ⟨.error e, rest, log⟩, hrest, _ => exact hrest.ne_nil
  | ⟨.ok a, rest, log⟩, hrest, hlen => exact hf a rest hlen hrest

/-- A last step that succeeds at the end of the list. -/
theorem Settles.bind {k : Nat} {p : Parser α} {f : α → Parser β} (hp : Settles k P p)
    (hf : ∀ a, Settled (f a [])) : Settles k P (p >>= f) := by
  intro u hu hclose
  have h := hp u hu hclose
  show Settled (Parser.bind p f u)
  unfold Parser.bind
  match p u, h with
  | ⟨.error e, rest, log⟩, h => exact h
  | ⟨.ok a, rest, log⟩, h =>
    obtain rfl : rest = [] := h
    exact hf a

theorem settles_semicolon (k : Nat) (fault : GrammarFault) :
    Settles k P (expect (.symbol .semicolon) fault) := by
  intro u _ hclose
  cases u with
  | nil => exact absurd rfl hclose.ne_nil
  | cons t u =>
    by_cases ht : t.kind = .symbol .semicolon
    · obtain rfl := hclose.eq_nil ht
      rw [expect, if_pos ht]
      exact rfl
    · rw [expect, if_neg ht]
      exact List.cons_ne_nil t u

/-! ### Statements -/

section Statements

variable {k : Nat} {expression : Parser Expr} (hE : Keeps k P expression)

include hE

/-- An expression and a semicolon, whatever is made of them. -/
theorem settles_terminated (fault : GrammarFault) (node : Expr → Stmt) :
    Settles k P (do
      let e ← expression
      expect (.symbol .semicolon) fault
      return node e) :=
  hE.settles fun _ => (settles_semicolon k fault).bind fun _ => rfl

theorem keeps_initialValue : Keeps k P (varDeclaration.initialValue expression) := by
  intro u hu hclose
  cases u with
  | nil => exact absurd rfl hclose.ne_nil
  | cons t u =>
    by_cases ht : t.kind = .symbol .equal
    · have hne : t.kind ≠ .symbol .semicolon := by
        rw [ht]
        decide
      rw [varDeclaration.initialValue, if_pos ht]
      exact hE u (Nat.le_of_succ_le hu) (hclose.tail hne)
    · rw [varDeclaration.initialValue, if_neg ht]
      exact ⟨hclose, hu⟩

theorem settles_varDeclaration : Settles k P (varDeclaration expression) := by
  intro u hu hclose
  cases u with
  | nil => exact absurd rfl hclose.ne_nil
  | cons t u =>
    rw [varDeclaration]
    split
    · next name hname =>
      have hrest : Settles k P (do
          let initial ← varDeclaration.initialValue expression
          expect (.symbol .semicolon) .semicolonAfterDeclaration
          return Stmt.declare t initial) :=
        (keeps_initialValue hE).settles fun _ => (settles_semicolon k _).bind fun _ => rfl
      have hne : t.kind ≠ .symbol .semicolon := by
        rw [hname]
        simp
      exact hrest u (Nat.le_of_succ_le hu) (hclose.tail hne)
    · exact List.cons_ne_nil t u

variable {statement : Parser Stmt} (hS : Settles k P statement)

include hS

theorem settles_conditional : Settles k P (conditional expression statement) :=
  (keeps_expect k _ (by decide)).settles fun _ => hE.settles fun _ =>
    (keeps_expect k _ (by decide)).settles fun _ => hS.bind fun _ => rfl

theorem settles_whileLoop : Settles k P (whileLoop expression statement) :=
  (keeps_expect k _ (by decide)).settles fun _ => hE.settles fun _ =>
    (keeps_expect k _ (by decide)).settles fun _ => hS.bind fun _ => rfl

end Statements

/-- The kinds that begin no statement but an expression. -/
def Plain (k : Kind) : Prop := k ∉ Kind.statementKeywords ∧ k ≠ .symbol .leftBrace

theorem keeps_expression (b : Nat) : Keeps b P (expression b) :=
  keeps_of_agrees (agrees_expression (Nat.le_refl b) (Nat.le_refl b))

/-- Where nothing begins another statement, a statement is an expression. -/
theorem settles_statement (b : Nat) : Settles b Plain (statement b) := by
  intro u hu hclose
  cases u with
  | nil => exact absurd rfl hclose.ne_nil
  | cons t u =>
    obtain _ | b := b
    · exact List.cons_ne_nil t u
    have ht := hclose.kinds t List.mem_cons_self
    have hexpr := settles_terminated (keeps_expression (b + 1)) .semicolonAfterExpression .expr
      (t :: u) hu hclose
    rw [statement]
    split <;> simp_all [Plain, Kind.statementKeywords, exprStatement]

/-! ### Simple statements -/

end Parser

/-- The list has the form of one statement with none in braces: its only semicolon is its last
token, it has no brace and no `for`, its first token is not `else`, and a keyword that a statement
may begin with can only be its first token. -/
structure Simple (ts : List Token) : Prop where
  ends : ∃ front semicolon, ts = front ++ [semicolon] ∧ semicolon.kind = .symbol .semicolon ∧
    ∀ t ∈ front, t.kind ≠ .symbol .semicolon
  kinds : ∀ t ∈ ts, t.kind ≠ .symbol .leftBrace ∧ t.kind ≠ .symbol .rightBrace ∧
    t.kind ≠ .keyword .forKw
  first : ∀ t ∈ ts.head?, t.kind ≠ .keyword .elseKw
  inner : ∀ t ∈ ts.tail, t.kind ∉ Kind.statementKeywords

theorem Simple.closes {ts : List Token} (h : Simple ts) : Parser.Closes Parser.Any ts :=
  ⟨fun _ _ => trivial, h.ends⟩

namespace Parser

variable {ts : List Token}

/-- **A simple statement is read to its end, or fails with tokens left.** -/
theorem settled_attempt (h : Simple ts) {b : Nat} (hb : ts.length ≤ b) :
    Settled (attempt (expression b) (statement b) ts) := by
  have hclose := h.closes
  cases ts with
  | nil => exact absurd rfl hclose.ne_nil
  | cons t u =>
    obtain ⟨hlbrace, -, hfor⟩ := h.kinds t List.mem_cons_self
    -- What follows a keyword closes, and nothing in it begins another statement.
    have htail : ∀ k, t.kind = .keyword k → Closes Plain u := by
      intro k hk
      refine ⟨fun t' ht' => ⟨h.inner t' ht', ?_⟩, (hclose.tail (hk ▸ nofun)).ends⟩
      exact (h.kinds t' (List.mem_cons_of_mem t ht')).1
    by_cases hvar : t.kind = .keyword .varKw
    · rw [attempt, if_pos hvar]
      exact settles_varDeclaration (keeps_expression b) u (Nat.le_of_succ_le hb) (htail _ hvar)
    rw [attempt, if_neg hvar]
    obtain _ | b := b
    · exact List.cons_ne_nil t u
    have hE := keeps_expression (P := Plain) b
    have hu : u.length ≤ b := Nat.le_of_succ_le_succ hb
    rw [statement]
    split
    · next hk => exact settles_conditional hE (settles_statement b) u hu (htail _ hk)
    · next hk => exact settles_terminated hE _ .print u hu (htail _ hk)
    · next hk => exact absurd hk hlbrace
    · next hk => exact settles_whileLoop hE (settles_statement b) u hu (htail _ hk)
    · next hk => exact absurd hk hfor
    · exact settles_terminated (keeps_expression (b + 1)) _ .expr (t :: u) hb hclose

/-- **A simple statement that is given up costs its own tokens and no others**, and every failure in
it was noticed at one of them. -/
theorem declaration_of_attempt_error (h : Simple ts) {k : Nat} (hk : ts.length ≤ k) {f : Failure}
    {rest : List Token} {log : List Failure}
    (he : attempt (expression k) (statement k) ts = ⟨.error f, rest, log⟩) :
    (∀ x ∈ log ++ [f], x.found ≠ none) ∧ ∀ b v, ts.length ≤ b →
      declaration (expression b) (statement b) (ts ++ v) = ⟨.ok none, v, log ++ [f]⟩ := by
  have hsettled := settled_attempt h hk
  rw [he] at hsettled
  have hrest : rest ≠ [] := hsettled
  cases ts with
  | nil => exact absurd rfl h.closes.ne_nil
  | cons t u =>
    have hlocal : ∀ b, (t :: u).length ≤ b → Local Any 1 (t :: u) ⟨.error f, rest, log⟩ fun v =>
        attempt (expression b) (statement b) (t :: u ++ v) := by
      intro b hb
      rw [← he]
      exact local_attempt ((agrees_expression hk hb).mono (Nat.le_refl 1) (Nat.le_refl _)
        fun _ _ => trivial) (agrees_statement hk hb) t u (Nat.le_refl _)
    have hself := hlocal k hk
    -- The rest of the list closes too, and so skipping lands behind it.
    have hskip : ∀ v, skipStatement (rest ++ v) = v := by
      obtain ⟨used, hused, -⟩ := hself.used
      dsimp only at hused
      refine skipStatement_append_of_closes ((hused ▸ h.closes).of_append hrest) fun t' ht' => ?_
      refine h.inner t' ?_
      cases used with
      | nil =>
        rw [List.nil_append] at hused
        rwa [hused]
      | cons t'' used =>
        obtain ⟨-, rfl⟩ := List.cons.inj hused
        exact List.mem_append_right used (List.mem_of_mem_tail ht')
    refine ⟨fun x hx => ?_, fun b v hb => ?_⟩
    · obtain hx | hx := List.mem_append.mp hx
      · exact hself.located hrest x hx
      · obtain rfl := List.mem_singleton.mp hx
        rw [hself.found x rfl]
        exact fun hnone => hrest (List.head?_eq_none_iff.mp hnone)
    · rw [declaration_eq, recovering, (hlocal b hb).same v (.inr hrest)]
      dsimp only [Reply.before]
      rw [hskip]

end Parser

end Lox
