import Lox.Program

/-!
# Parsers look no further than they have to

A parser goes forward through its list of tokens: what it leaves is the end of the list, and it
blames the token in front of what it leaves.  If it leaves anything at all, it has not seen the end
of the list, so it replies in the same way when more tokens follow, and so does the parser with any
other bound that is large enough.

A reply with these properties is *local*, and `Agrees C least k p q` says that `p` gives local
replies to lists of at most `k` tokens, which are the replies of `q` to longer lists too.  The kinds
of the tokens read are all in `C`, and a reading has at least `least` of them: an expression has at
least one token and no semicolon (`agrees_expression`), and a statement has at least one token
(`agrees_statement`).
-/

namespace Lox

/-- A reply when more tokens follow those that are left. -/
def Reply.before {α : Type} (v : List Token) (r : Reply α) : Reply α :=
  ⟨r.result, r.rest ++ v, r.log⟩

namespace Parser

variable {α β : Type} {C D : Kind → Prop} {least : Nat}

/-- The reply `r` to the tokens `u` is local.  The reply when `v` follows `u` is `q v`. -/
structure Local (C : Kind → Prop) (least : Nat) (u : List Token) (r : Reply α)
    (q : List Token → Reply α) : Prop where
  /-- What is left is the end of the list. -/
  used : ∃ used, u = used ++ r.rest ∧ (∀ t ∈ used, C t.kind) ∧
    ∀ a, r.result = .ok a → least ≤ used.length
  /-- A failure is noticed at the token in front of what is left. -/
  found : ∀ f, r.result = .error f → f.found = r.rest.head?
  /-- If anything is left, every failure in the log was noticed at a token. -/
  located : r.rest ≠ [] → ∀ x ∈ r.log, x.found ≠ none
  /-- If anything is left, what follows does not matter. -/
  same : ∀ v, v = [] ∨ r.rest ≠ [] → q v = r.before v

/-- The first parser gives local replies to lists of at most `k` tokens, and the second one gives
the same replies. -/
def Agrees (C : Kind → Prop) (least k : Nat) (p q : Parser α) : Prop :=
  ∀ u : List Token, u.length ≤ k → Local C least u (p u) fun v => q (u ++ v)

/-! ### Steps -/

namespace Local

variable {u : List Token} {r : Reply α} {q : List Token → Reply α}

theorem mono {m : Nat} (h : Local C least u r q) (hm : m ≤ least) (hCD : ∀ k, C k → D k) :
    Local D m u r q := by
  obtain ⟨used, hu, hC, hleast⟩ := h.used
  exact ⟨⟨used, hu, fun t ht => hCD _ (hC t ht), fun a ha => Nat.le_trans hm (hleast a ha)⟩,
    h.found, h.located, h.same⟩

theorem weaken {m : Nat} (h : Local C least u r q) (hm : m ≤ least) : Local C m u r q :=
  h.mono hm fun _ => id

/-- A reply to what follows a token that was read. -/
theorem cons {t : Token} (h : Local C least u r q) (ht : C t.kind) :
    Local C (least + 1) (t :: u) r q := by
  obtain ⟨used, hu, hC, hleast⟩ := h.used
  refine ⟨⟨t :: used, by rw [hu, List.cons_append], ?_, fun a ha => ?_⟩, h.found, h.located, h.same⟩
  · exact List.forall_mem_cons.mpr ⟨ht, hC⟩
  · exact Nat.succ_le_succ (hleast a ha)

theorem map (g : α → β) (h : Local C least u r q) :
    Local C least u (r.map g) fun v => (q v).map g := by
  obtain ⟨used, hu, hC, hleast⟩ := h.used
  obtain ⟨result, rest, log⟩ := r
  refine ⟨⟨used, hu, hC, fun b hb => ?_⟩, fun f hf => ?_, h.located, fun v hv => ?_⟩
  · cases result with
    | ok a => exact hleast a rfl
    | error f => cases hb
  · cases result with
    | ok a => cases hf
    | error f' =>
      cases hf
      exact h.found f rfl
  · rw [h.same v hv]
    rfl

/-- A reply that reads nothing. -/
theorem stay (a : α) (h : ∀ v, q v = ⟨.ok a, u ++ v, []⟩) : Local C 0 u ⟨.ok a, u, []⟩ q :=
  ⟨⟨[], rfl, List.forall_mem_nil _, fun _ _ => Nat.zero_le _⟩, fun _ hf => (nomatch hf),
    fun _ => List.forall_mem_nil _, fun v _ => h v⟩

/-- A failure at the token in front. -/
theorem fail_cons {t : Token} (fault : GrammarFault)
    (h : ∀ v, q v = Parser.fail fault (t :: (u ++ v))) :
    Local C least (t :: u) (Parser.fail fault (t :: u)) q := by
  refine ⟨⟨[], rfl, List.forall_mem_nil _, fun _ ha => (nomatch ha)⟩, fun f hf => ?_,
    fun _ => List.forall_mem_nil _, fun v _ => h v⟩
  cases hf
  rfl

/-- What a later step leaves is the end of what an earlier one left. -/
theorem rest_ne_nil (h : Local C least u r q) (hr : r.rest ≠ []) : u ≠ [] := by
  rintro rfl
  obtain ⟨used, hu, -, -⟩ := h.used
  exact hr (List.append_eq_nil_iff.mp hu.symm).2

/-- Where there are no tokens, nothing may follow. -/
theorem congr_nil {q' : List Token → Reply α} (h : Local C least [] r q) (hq : q' [] = q []) :
    Local C least [] r q' := by
  refine ⟨h.used, h.found, h.located, fun v hv => ?_⟩
  obtain rfl | hne := hv
  · rw [hq, h.same [] (.inl rfl)]
  · exact absurd rfl (h.rest_ne_nil hne)

theorem stay_nil {q : Parser α} (a : α) (h : q [] = ⟨.ok a, [], []⟩) :
    Local C 0 [] ⟨.ok a, [], []⟩ fun v => q ([] ++ v) :=
  (stay a fun _ => rfl).congr_nil h

theorem fail_nil {q : Parser α} (fault : GrammarFault) (h : q [] = Parser.fail fault []) :
    Local C least [] (Parser.fail fault []) fun v => q ([] ++ v) := by
  refine ⟨⟨[], rfl, List.forall_mem_nil _, fun _ ha => (nomatch ha)⟩, fun f hf => ?_,
    fun _ => List.forall_mem_nil _, fun v hv => ?_⟩
  · cases hf
    rfl
  · obtain rfl | hne := hv
    · exact h
    · exact absurd rfl hne

theorem length_rest_le (h : Local C least u r q) {a : α} (ha : r.result = .ok a) :
    r.rest.length + least ≤ u.length := by
  obtain ⟨used, hu, -, hleast⟩ := h.used
  have hlen := congrArg List.length hu
  have := hleast a ha
  rw [List.length_append] at hlen
  omega

end Local

theorem Agrees.mono {least m k l : Nat} {p q : Parser α} (h : Agrees C least k p q) (hm : m ≤ least)
    (hl : l ≤ k) (hCD : ∀ k, C k → D k) : Agrees D m l p q :=
  fun u hu => (h u (Nat.le_trans hu hl)).mono hm hCD

theorem agrees_pure (k : Nat) (a : α) : Agrees C 0 k (Pure.pure a) (Pure.pure a) :=
  fun _ _ => Local.stay a fun _ => rfl

theorem agrees_note (k : Nat) (fault : GrammarFault) (t : Token) :
    Agrees C 0 k (note fault t) (note fault t) := by
  intro u _
  refine ⟨⟨[], rfl, List.forall_mem_nil _, fun _ _ => Nat.zero_le _⟩, fun _ hf => (nomatch hf),
    fun _ x hx => ?_, fun _ _ => rfl⟩
  obtain rfl : x = ⟨fault, some t⟩ := List.mem_singleton.mp hx
  exact nofun

theorem agrees_expect (k : Nat) (kind : Kind) (fault : GrammarFault) (hC : C kind) :
    Agrees C 1 k (expect kind fault) (expect kind fault) := by
  intro u _
  cases u with
  | nil => exact Local.fail_nil fault rfl
  | cons t u =>
    by_cases ht : t.kind = kind
    · simp only [List.cons_append, expect, if_pos ht]
      exact (Local.stay () fun _ => rfl).cons (ht ▸ hC)
    · simp only [List.cons_append, expect, if_neg ht]
      exact Local.fail_cons fault fun _ => rfl

/-- **Two steps look no further than the one and then the other.** -/
theorem Local.bind {m n : Nat} {u : List Token} {p q : Parser α} {f g : α → Parser β}
    (hp : Local C m u (p u) fun v => q (u ++ v))
    (hf : ∀ a rest, rest.length + m ≤ u.length →
      Local C n rest (f a rest) fun v => g a (rest ++ v)) :
    Local C (m + n) u ((p >>= f) u) fun v => (q >>= g) (u ++ v) := by
  show Local C (m + n) u (Parser.bind p f u) fun v => Parser.bind q g (u ++ v)
  unfold Parser.bind
  match p u, hp with
  | ⟨.error e, rest, log⟩, hp =>
    obtain ⟨used, hused, hC, -⟩ := hp.used
    refine ⟨⟨used, hused, hC, fun _ ha => (nomatch ha)⟩, fun f hf => ?_, hp.located, fun v hv => ?_⟩
    · cases hf
      exact hp.found e rfl
    · rw [hp.same v hv]
      rfl
  | ⟨.ok a, rest, log⟩, hp =>
    have hfa := hf a rest (hp.length_rest_le rfl)
    obtain ⟨used, hused, hC, hm⟩ := hp.used
    obtain ⟨used', hused', hC', hn⟩ := hfa.used
    dsimp only at hused hused' ⊢
    refine ⟨⟨used ++ used', ?_, ?_, fun b hb => ?_⟩, hfa.found, fun hne x hx => ?_, fun v hv => ?_⟩
    · rw [List.append_assoc, ← hused']
      exact hused
    · exact List.forall_mem_append.mpr ⟨hC, hC'⟩
    · rw [List.length_append]
      exact Nat.add_le_add (hm a rfl) (hn b hb)
    · obtain hx | hx := List.mem_append.mp hx
      · exact hp.located (hfa.rest_ne_nil hne) x hx
      · exact hfa.located hne x hx
    · have hv' : v = [] ∨ rest ≠ [] := hv.imp id hfa.rest_ne_nil
      rw [hp.same v hv']
      dsimp only [Reply.before]
      rw [hfa.same v hv]
      rfl

/-- Where the first step has read something, the second one has a shorter list. -/
theorem Agrees.bind {m n k l : Nat} {p q : Parser α} {f g : α → Parser β} (hp : Agrees C m k p q)
    (hl : k ≤ l + m) (hf : ∀ a, Agrees C n l (f a) (g a)) :
    Agrees C (m + n) k (p >>= f) (q >>= g) := by
  intro u hu
  refine (hp u hu).bind fun a rest hrest => hf a rest ?_
  omega

/-! ### Expressions -/

/-- The kinds of tokens that an expression may have: all but the one that ends a statement. -/
def Inner (k : Kind) : Prop := k ≠ .symbol .semicolon

section Expressions

variable {k : Nat} {expression expression' : Parser Expr}
  (hE : Agrees Inner 1 k expression expression')

include hE

theorem agrees_primary : Agrees Inner 1 (k + 1) (primary expression) (primary expression') := by
  intro u hu
  cases u with
  | nil => exact Local.fail_nil _ rfl
  | cons t u =>
    simp only [List.cons_append, primary]
    split
    · next name hname => exact (Local.stay _ fun _ => rfl).cons (hname ▸ nofun)
    · next hparen =>
      have hgrouping := hE.bind (Nat.le_succ k) fun e =>
        (agrees_expect k (.symbol .rightParen) .parenAfterExpression nofun).bind (Nat.le_succ k)
          fun _ => agrees_pure k (Expr.grouping e)
      exact ((hgrouping u (Nat.le_of_succ_le_succ hu)).cons (hparen ▸ nofun)).weaken
        (Nat.le_add_left 1 _)
    · split
      · next v hv =>
        refine (Local.stay _ fun _ => rfl).cons fun h => ?_
        rw [h] at hv
        cases hv
      · exact Local.fail_cons _ fun _ => rfl

theorem agrees_unary : Agrees Inner 1 (k + 1) (unary expression) (unary expression') := by
  intro u
  induction u with
  | nil => exact fun _ => Local.fail_nil _ rfl
  | cons t u ih =>
    intro hu
    by_cases ht : isUnary t.kind = true
    · simp only [List.cons_append, unary, if_pos ht]
      refine (((ih (Nat.le_of_succ_le hu)).map (Expr.unary t)).cons fun h => ?_).weaken
        (Nat.le_add_left 1 _)
      rw [h] at ht
      cases ht
    · simp only [List.cons_append, unary, if_neg ht]
      exact agrees_primary hE (t :: u) hu

end Expressions

/-- The rounds of operators: each of them reads a token, so a bound that is no less than the number
of tokens is never reached. -/
theorem agrees_operators {K : Nat} {operand operand' : Parser Expr} (level : Level)
    (h : Agrees Inner 1 K operand operand') {k b b' : Nat} (hK : k ≤ K) (hb : k ≤ b) (hb' : k ≤ b')
    (left : Expr) :
    Agrees Inner 0 k (operators level operand b left) (operators level operand' b' left) := by
  induction k generalizing b b' left with
  | zero =>
    intro u hu
    obtain rfl := List.eq_nil_of_length_eq_zero (Nat.le_zero.mp hu)
    have hstop : ∀ (p : Parser Expr) (c : Nat),
        operators level p c left [] = ⟨.ok left, [], []⟩ := by
      intro p c
      cases c <;> rfl
    rw [hstop]
    exact Local.stay_nil left (hstop operand' b')
  | succ k ih =>
    obtain _ | b := b
    · exact absurd hb (Nat.not_succ_le_zero k)
    obtain _ | b' := b'
    · exact absurd hb' (Nat.not_succ_le_zero k)
    intro u hu
    cases u with
    | nil => exact Local.stay_nil left rfl
    | cons t u =>
      have hu : u.length ≤ k := Nat.le_of_succ_le_succ hu
      by_cases ht : Level.of? t.kind = some level
      · simp only [List.cons_append, operators, if_pos ht]
        have hround := (h.mono (Nat.le_refl 1) (Nat.le_of_succ_le hK) fun _ => id).bind
          (Nat.le_succ k) fun right => ih (Nat.le_of_succ_le hK) (Nat.le_of_succ_le_succ hb)
            (Nat.le_of_succ_le_succ hb') (level.node left t right)
        refine ((hround u hu).cons fun hk => ?_).weaken (Nat.zero_le _)
        rw [hk] at ht
        cases ht
      · simp only [List.cons_append, operators, if_neg ht]
        exact Local.stay left fun _ => rfl

theorem agrees_leveled {k b b' : Nat} {operand operand' : Parser Expr} (level : Level) (hb : k ≤ b)
    (hb' : k ≤ b') (h : Agrees Inner 1 (k + 1) operand operand') :
    Agrees Inner 1 (k + 1) (leveled b level operand) (leveled b' level operand') :=
  h.bind (Nat.le_refl _) fun left => agrees_operators level h (Nat.le_succ k) hb hb' left

theorem agrees_disjunction {k b b' : Nat} {expression expression' : Parser Expr} (hb : k ≤ b)
    (hb' : k ≤ b') (hE : Agrees Inner 1 k expression expression') :
    Agrees Inner 1 (k + 1) (disjunction b expression) (disjunction b' expression') := by
  unfold disjunction
  induction Level.all with
  | nil => exact agrees_unary hE
  | cons level levels ih => exact agrees_leveled level hb hb' ih

theorem agrees_assignment (k : Nat) (left : Expr) (equals : Token) (value : Expr) :
    Agrees Inner 0 k (assignment left equals value) (assignment left equals value) := by
  unfold assignment
  split
  · exact agrees_pure k _
  · exact (agrees_note k _ _).bind (Nat.le_refl k) fun _ => agrees_pure k _

theorem agrees_assigned {k : Nat} {expression expression' : Parser Expr}
    (hE : Agrees Inner 1 k expression expression') (left : Expr) :
    Agrees Inner 0 (k + 1) (assigned expression left) (assigned expression' left) := by
  intro u hu
  cases u with
  | nil => exact Local.stay_nil left rfl
  | cons t u =>
    by_cases ht : t.kind = .symbol .equal
    · simp only [List.cons_append, assigned, if_pos ht]
      have hvalue := hE.bind (Nat.le_succ k) fun value => agrees_assignment k left t value
      exact ((hvalue u (Nat.le_of_succ_le_succ hu)).cons (ht ▸ nofun)).weaken (Nat.zero_le _)
    · simp only [List.cons_append, assigned, if_neg ht]
      exact Local.stay left fun _ => rfl

theorem expression_nil (b : Nat) : expression b [] = fail .expression [] := by
  cases b <;> rfl

/-- **An expression looks no further than it has to**, has at least one token and no semicolon. -/
theorem agrees_expression {k b b' : Nat} (hb : k ≤ b) (hb' : k ≤ b') :
    Agrees Inner 1 k (expression b) (expression b') := by
  induction k generalizing b b' with
  | zero =>
    intro u hu
    obtain rfl := List.eq_nil_of_length_eq_zero (Nat.le_zero.mp hu)
    rw [expression_nil]
    exact Local.fail_nil _ (expression_nil b')
  | succ k ih =>
    obtain _ | b := b
    · exact absurd hb (Nat.not_succ_le_zero k)
    obtain _ | b' := b'
    · exact absurd hb' (Nat.not_succ_le_zero k)
    have hb : k ≤ b := Nat.le_of_succ_le_succ hb
    have hb' : k ≤ b' := Nat.le_of_succ_le_succ hb'
    exact (agrees_disjunction hb hb' (ih hb hb')).bind (Nat.le_succ _)
      fun left => agrees_assigned (ih hb hb') left

/-! ### Skipping and recovering -/

/-- Any kind of token. -/
def Any (_ : Kind) : Prop := True

theorem exists_skipped (ts : List Token) :
    ∃ skipped, ts = skipped ++ skipStatement ts ∧ (ts ≠ [] → skipped ≠ []) := by
  fun_induction skipStatement ts with
  | case1 => exact ⟨[], rfl, id⟩
  | case2 t => exact ⟨[t], rfl, fun _ => nofun⟩
  | case3 t next ts h => exact ⟨[t], rfl, fun _ => nofun⟩
  | case4 t next ts h ih =>
    obtain ⟨skipped, hts, -⟩ := ih
    exact ⟨t :: skipped, congrArg (t :: ·) hts, fun _ => nofun⟩

theorem skipStatement_append {ts : List Token} (h : skipStatement ts ≠ []) (v : List Token) :
    skipStatement (ts ++ v) = skipStatement ts ++ v := by
  fun_induction skipStatement ts with
  | case1 => exact absurd rfl h
  | case2 t => exact absurd rfl h
  | case3 t next ts hstop => rw [List.cons_append, List.cons_append, skipStatement, if_pos hstop]
  | case4 t next ts hgo ih =>
    rw [List.cons_append, List.cons_append, skipStatement, if_neg hgo]
    exact ih h

/-- A reader that starts again has read or skipped a token, if there was one. -/
theorem local_recovering {u : List Token} (hu : u ≠ []) {p q : Parser α}
    (h : Local Any 1 u (p u) fun v => q (u ++ v)) :
    Local Any 1 u (recovering p u) fun v => recovering q (u ++ v) := by
  unfold recovering
  match p u, h with
  | ⟨.ok a, rest, log⟩, h =>
    obtain ⟨used, hused, -, hleast⟩ := h.used
    refine ⟨⟨used, hused, fun _ _ => trivial, fun _ _ => hleast a rfl⟩, fun _ hf => (nomatch hf),
      h.located, fun v hv => ?_⟩
    rw [h.same v hv]
    rfl
  | ⟨.error f, rest, log⟩, h =>
    obtain ⟨used, hused, -⟩ := h.used
    obtain ⟨skipped, hskipped, hpos⟩ := exists_skipped rest
    dsimp only at hused ⊢
    have hrest : skipStatement rest ≠ [] → rest ≠ [] := by
      rintro hne rfl
      exact hne rfl
    refine ⟨⟨used ++ skipped, ?_, fun _ _ => trivial, fun _ _ => ?_⟩,
      fun _ hf => (nomatch hf), fun hne x hx => ?_, fun v hv => ?_⟩
    · rw [List.append_assoc, ← hskipped]
      exact hused
    · refine List.length_pos_iff.mpr fun hnil => ?_
      obtain ⟨rfl, rfl⟩ := List.append_eq_nil_iff.mp hnil
      rw [hused] at hu
      exact hpos hu rfl
    · obtain hx | hx := List.mem_append.mp hx
      · exact h.located (hrest hne) x hx
      · obtain rfl := List.mem_singleton.mp hx
        rw [h.found x rfl]
        exact fun hnone => hrest hne (List.head?_eq_none_iff.mp hnone)
    · rw [h.same v (hv.imp id hrest)]
      dsimp only [Reply.before]
      obtain rfl | hne := hv
      · rw [List.append_nil, List.append_nil]
      · rw [skipStatement_append hne]

/-! ### Declarations and lists of them -/

/-- What a declaration reads before it is given up. -/
def attempt (expression : Parser Expr) (statement : Parser Stmt) : Parser Stmt
  | [] => statement []
  | t :: ts =>
    if t.kind = .keyword .varKw then varDeclaration expression ts else statement (t :: ts)

theorem declaration_eq (expression : Parser Expr) (statement : Parser Stmt) :
    declaration expression statement = recovering (attempt expression statement) := by
  unfold declaration
  congr 1

section Declarations

variable {k : Nat} {expression expression' : Parser Expr}
  (hE : Agrees Any 1 k expression expression')

include hE

theorem agrees_initialValue : Agrees Any 0 (k + 1) (varDeclaration.initialValue expression)
    (varDeclaration.initialValue expression') := by
  intro u hu
  cases u with
  | nil => exact Local.stay_nil none rfl
  | cons t u =>
    by_cases ht : t.kind = .symbol .equal
    · simp only [List.cons_append, varDeclaration.initialValue, if_pos ht]
      exact (((hE u (Nat.le_of_succ_le_succ hu)).map some).cons trivial).weaken (Nat.zero_le _)
    · simp only [List.cons_append, varDeclaration.initialValue, if_neg ht]
      exact Local.stay none fun _ => rfl

theorem agrees_varDeclaration :
    Agrees Any 1 (k + 1) (varDeclaration expression) (varDeclaration expression') := by
  intro u hu
  cases u with
  | nil => exact Local.fail_nil _ rfl
  | cons t u =>
    simp only [List.cons_append, varDeclaration]
    split
    · have hrest := (agrees_initialValue hE).bind (Nat.le_refl _) fun initial =>
        (agrees_expect _ (.symbol .semicolon) .semicolonAfterDeclaration trivial).bind
          (Nat.le_succ _) fun _ => agrees_pure _ (Stmt.declare t initial)
      exact ((hrest u (Nat.le_of_succ_le hu)).cons trivial).weaken (Nat.le_add_left 1 _)
    · exact Local.fail_cons _ fun _ => rfl

theorem local_attempt {statement statement' : Parser Stmt}
    (hS : Agrees Any 1 k statement statement') (t : Token) (u : List Token)
    (hu : (t :: u).length ≤ k) :
    Local Any 1 (t :: u) (attempt expression statement (t :: u)) fun v =>
      attempt expression' statement' (t :: u ++ v) := by
  by_cases ht : t.kind = .keyword .varKw
  · simp only [List.cons_append, attempt, if_pos ht]
    have hu' : u.length ≤ k + 1 := Nat.le_succ_of_le (Nat.le_of_succ_le hu)
    exact ((agrees_varDeclaration hE u hu').cons trivial).weaken (Nat.le_add_left 1 _)
  · simp only [List.cons_append, attempt, if_neg ht]
    exact hS (t :: u) hu

theorem local_declaration {statement statement' : Parser Stmt}
    (hS : Agrees Any 1 k statement statement') (t : Token) (u : List Token)
    (hu : (t :: u).length ≤ k) :
    Local Any 1 (t :: u) (declaration expression statement (t :: u)) fun v =>
      declaration expression' statement' (t :: u ++ v) := by
  rw [declaration_eq, declaration_eq]
  exact local_recovering (List.cons_ne_nil t u) (local_attempt hE hS t u hu)

end Declarations

/-- Each declaration reads or skips a token, so a bound that is no less than the number of tokens is
never reached. -/
theorem agrees_declarations {K : Nat} {declare declare' : Parser (Option Stmt)}
    (stops : Kind → Bool) (h : ∀ t u, (t :: u).length ≤ K →
      Local Any 1 (t :: u) (declare (t :: u)) fun v => declare' (t :: u ++ v))
    {k b b' : Nat} (hK : k ≤ K) (hb : k ≤ b) (hb' : k ≤ b') :
    Agrees Any 0 k (declarations stops declare b) (declarations stops declare' b') := by
  induction k generalizing b b' with
  | zero =>
    intro u hu
    obtain rfl := List.eq_nil_of_length_eq_zero (Nat.le_zero.mp hu)
    have hstop : ∀ (p : Parser (Option Stmt)) (c : Nat),
        declarations stops p c [] = ⟨.ok [], [], []⟩ := by
      intro p c
      cases c <;> rfl
    rw [hstop]
    exact Local.stay_nil [] (hstop declare' b')
  | succ k ih =>
    obtain _ | b := b
    · exact absurd hb (Nat.not_succ_le_zero k)
    obtain _ | b' := b'
    · exact absurd hb' (Nat.not_succ_le_zero k)
    intro u hu
    cases u with
    | nil => exact Local.stay_nil [] rfl
    | cons t u =>
      by_cases ht : stops t.kind = true
      · simp only [List.cons_append, declarations, if_pos ht]
        exact Local.stay [] fun _ => rfl
      · simp only [List.cons_append, declarations, if_neg ht]
        have hothers := fun first : Option Stmt => (ih (Nat.le_of_succ_le hK)
          (Nat.le_of_succ_le_succ hb) (Nat.le_of_succ_le_succ hb')).bind (Nat.le_refl k)
            fun others => agrees_pure k (first.toList ++ others)
        have hround := (h t u (Nat.le_trans hu hK)).bind fun first rest hrest =>
          hothers first rest (by omega)
        exact hround.weaken (Nat.zero_le _)

/-! ### Statements -/

section Statements

variable {k : Nat} {expression expression' : Parser Expr}
  (hE : Agrees Any 1 k expression expression')

include hE

/-- An expression and a semicolon, whatever is made of them. -/
theorem agrees_terminated (fault : GrammarFault) (node : Expr → Stmt) :
    Agrees Any 2 k
      (do
        let e ← expression
        expect (.symbol .semicolon) fault
        return node e)
      (do
        let e ← expression'
        expect (.symbol .semicolon) fault
        return node e) :=
  hE.bind (Nat.le_succ k) fun e => (agrees_expect k _ fault trivial).bind (Nat.le_succ k)
    fun _ => agrees_pure k (node e)

theorem agrees_loopInitial :
    Agrees Any 1 k (loopInitial expression) (loopInitial expression') := by
  have hexpr : Agrees Any 1 k (exprStatement expression) (exprStatement expression') :=
    (agrees_terminated hE _ .expr).mono (Nat.le_succ 1) (Nat.le_refl k) fun _ => id
  intro u hu
  cases u with
  | nil => exact ((hexpr [] hu).map some).congr_nil rfl
  | cons t u =>
    simp only [List.cons_append, loopInitial]
    split
    · exact (Local.stay none fun _ => rfl).cons trivial
    · have hu' : u.length ≤ k + 1 := Nat.le_succ_of_le (Nat.le_of_succ_le hu)
      exact (((agrees_varDeclaration hE u hu').map some).cons trivial).weaken (Nat.le_add_left 1 _)
    · exact (hexpr (t :: u) hu).map some

theorem agrees_exprBefore (kind : Kind) :
    Agrees Any 0 k (exprBefore kind expression) (exprBefore kind expression') := by
  intro u hu
  cases u with
  | nil => exact (((hE [] hu).map some).weaken (Nat.zero_le _)).congr_nil rfl
  | cons t u =>
    by_cases ht : t.kind = kind
    · simp only [List.cons_append, exprBefore, if_pos ht]
      exact Local.stay none fun _ => rfl
    · simp only [List.cons_append, exprBefore, if_neg ht]
      exact ((hE (t :: u) hu).map some).weaken (Nat.zero_le _)

variable {statement statement' : Parser Stmt} (hS : Agrees Any 1 k statement statement')

include hS

omit hE in
theorem agrees_otherwise (condition : Expr) (yes : Stmt) :
    Agrees Any 0 k (otherwise statement condition yes) (otherwise statement' condition yes) := by
  intro u hu
  cases u with
  | nil => exact Local.stay_nil _ rfl
  | cons t u =>
    by_cases ht : t.kind = .keyword .elseKw
    · simp only [List.cons_append, otherwise, if_pos ht]
      exact (((hS u (Nat.le_of_succ_le hu)).map _).cons trivial).weaken (Nat.zero_le _)
    · simp only [List.cons_append, otherwise, if_neg ht]
      exact Local.stay _ fun _ => rfl

theorem agrees_conditional :
    Agrees Any 4 k (conditional expression statement) (conditional expression' statement') :=
  (agrees_expect k _ _ trivial).bind (Nat.le_succ k) fun _ => hE.bind (Nat.le_succ k)
    fun c => (agrees_expect k _ _ trivial).bind (Nat.le_succ k) fun _ => hS.bind (Nat.le_succ k)
    fun yes => agrees_otherwise hS c yes

theorem agrees_whileLoop :
    Agrees Any 4 k (whileLoop expression statement) (whileLoop expression' statement') :=
  (agrees_expect k _ _ trivial).bind (Nat.le_succ k) fun _ => hE.bind (Nat.le_succ k)
    fun c => (agrees_expect k _ _ trivial).bind (Nat.le_succ k) fun _ => hS.bind (Nat.le_succ k)
    fun body => agrees_pure k (Stmt.loop c body)

theorem agrees_forLoop :
    Agrees Any 5 k (forLoop expression statement) (forLoop expression' statement') :=
  (agrees_expect k _ _ trivial).bind (Nat.le_succ k) fun _ =>
    (agrees_loopInitial hE).bind (Nat.le_succ k) fun initial =>
    (agrees_exprBefore hE _).bind (Nat.le_refl k) fun condition =>
    (agrees_expect k _ _ trivial).bind (Nat.le_succ k) fun _ =>
    (agrees_exprBefore hE _).bind (Nat.le_refl k) fun increment =>
    (agrees_expect k _ _ trivial).bind (Nat.le_succ k) fun _ => hS.bind (Nat.le_succ k)
    fun body => agrees_pure k (countingLoop initial condition increment body)

theorem agrees_block {b b' : Nat} (hb : k ≤ b) (hb' : k ≤ b') :
    Agrees Any 1 k (block b (declaration expression statement))
      (block b' (declaration expression' statement')) :=
  (agrees_declarations _ (local_declaration hE hS) (Nat.le_refl k) hb hb').bind (Nat.le_refl k)
    fun body => (agrees_expect k _ _ trivial).bind (Nat.le_succ k)
    fun _ => agrees_pure k (Stmt.block body)

end Statements

/-! ### The knot -/

theorem statement_nil (b : Nat) : statement b [] = fail .expression [] := by
  cases b <;> rfl

/-- **A statement looks no further than it has to**, and has at least one token. -/
theorem agrees_statement {k b b' : Nat} (hb : k ≤ b) (hb' : k ≤ b') :
    Agrees Any 1 k (statement b) (statement b') := by
  induction k generalizing b b' with
  | zero =>
    intro u hu
    obtain rfl := List.eq_nil_of_length_eq_zero (Nat.le_zero.mp hu)
    rw [statement_nil]
    exact Local.fail_nil _ (statement_nil b')
  | succ k ih =>
    obtain _ | b := b
    · exact absurd hb (Nat.not_succ_le_zero k)
    obtain _ | b' := b'
    · exact absurd hb' (Nat.not_succ_le_zero k)
    have hle : k ≤ b := Nat.le_of_succ_le_succ hb
    have hle' : k ≤ b' := Nat.le_of_succ_le_succ hb'
    have hS := ih hle hle'
    have hE : Agrees Any 1 k (expression b) (expression b') :=
      (agrees_expression hle hle').mono (Nat.le_refl 1) (Nat.le_refl k) fun _ _ => trivial
    intro u hu
    cases u with
    | nil => exact Local.fail_nil _ rfl
    | cons t u =>
      have hu' : u.length ≤ k := Nat.le_of_succ_le_succ hu
      simp only [List.cons_append, statement]
      split
      · exact ((agrees_conditional hE hS u hu').cons trivial).weaken (by decide)
      · exact ((agrees_terminated hE _ .print u hu').cons trivial).weaken (by decide)
      · exact ((agrees_block hE hS hle hle' u hu').cons trivial).weaken (by decide)
      · exact ((agrees_whileLoop hE hS u hu').cons trivial).weaken (by decide)
      · exact ((agrees_forLoop hE hS u hu').cons trivial).weaken (by decide)
      · have hwhole : Agrees Any 1 (k + 1) (expression (b + 1)) (expression (b' + 1)) :=
          (agrees_expression hb hb').mono (Nat.le_refl 1) (Nat.le_refl _) fun _ _ => trivial
        exact (agrees_terminated hwhole _ .expr (t :: u) hu).weaken (by decide)

end Parser

end Lox
