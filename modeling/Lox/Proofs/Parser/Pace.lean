import Lox.Proofs.Parser.InPlace

/-!
# In step with reading in place

A parser that reads the tokens before the end of the input and one that reads the same in place go
*in step*: the replies are the same up to `Reply.ending` (`InStep`).  Along with that every fault is
charged to a token that was read, no two to the same one.

* An expression or a statement that is read leaves one of its tokens without a charge; that token is
  the *credit* of the reply.  An invalid target is charged to its `=`.
* Where a reader starts again, the failure is charged to a token that is skipped.  At the end of the
  input none is skipped, so a token must have been spared (`Paced`); an opening brace is the one of
  its block.

`Paces v credit k p q` says this of two parsers on lists of fewer than `k` tokens before the end
`v`.  One expansion of a reader reads lists that are one token longer (`ExpressionsPace.expand`,
`paces_expand_statement`, `tallies_expand_declarations`), because everything that is read before a
recursive call has at least one token.
-/

namespace Lox

namespace Parser

variable {α β : Type}

/-- The reply `r` to the tokens `u` and the reply `s` in place, where the end `v` follows them, are
in step.  A reply that is not a failure has `credit` tokens without a charge. -/
structure InStep (v : List Token) (credit : Nat) (u : List Token) (r s : Reply α) : Prop where
  /-- What is left is the end of the list. -/
  suffix : r.rest <:+ u
  /-- There are no more faults than tokens that were read. -/
  within : r.log.length + r.rest.length ≤ u.length
  earned : ∀ a, r.result = .ok a → r.log.length + credit + r.rest.length ≤ u.length
  same : s = r.ending v

/-- The replies are in step, and if nothing is left, a failure here can be charged to a token. -/
structure Paced (v : List Token) (credit : Nat) (u : List Token) (r s : Reply α) : Prop
    extends InStep v credit u r s where
  spare : r.rest = [] → u ≠ [] → r.log.length < u.length

/-- Two parsers are in step on lists of fewer than `k` tokens before the end `v`. -/
def Paces (v : List Token) (credit k : Nat) (p q : Parser α) : Prop :=
  ∀ u, Inside u → u.length < k → Paced v credit u (p u) (q (u ++ v))

/-- `r` and `s` are the replies of a reader that never fails: what it reads, which counts as a
number of statements, and the faults each have a token that was read. -/
def Tallies (v : List Token) (count : α → Nat) (u : List Token) (r s : Reply α) : Prop :=
  ∃ a rest log, r = ⟨.ok a, rest, log⟩ ∧ s = ⟨.ok a, rest ++ v, log.map (Failure.ending v)⟩ ∧
    rest <:+ u ∧ count a + log.length + rest.length ≤ u.length

/-- The parser goes one way at a token of the given kind and the other way elsewhere. -/
structure Branches (kind : Kind) (p : Parser α) (yes : Token → Parser α) (no : Parser α) :
    Prop where
  nil : p [] = no []
  cons : ∀ t ts, p (t :: ts) = if t.kind = kind then yes t ts else no (t :: ts)

/-! ### Steps -/

variable {v u : List Token} {credit : Nat} {r s : Reply α}

namespace InStep

theorem weaken {m : Nat} (h : InStep v credit u r s) (hm : m ≤ credit) : InStep v m u r s where
  suffix := h.suffix
  within := h.within
  earned a ha := by
    have := h.earned a ha
    omega
  same := h.same

/-- A token that was read before has no charge yet, whatever follows it. -/
theorem cons {t : Token} (h : InStep v credit u r s) : Paced v (credit + 1) (t :: u) r s where
  suffix := h.suffix.trans (List.suffix_cons t u)
  within := Nat.le_succ_of_le h.within
  earned a ha := by
    have := h.earned a ha
    rw [List.length_cons]
    omega
  same := h.same
  spare _ _ := by
    have := h.within
    rw [List.length_cons]
    omega

/-- **Two steps are in step when each of them is.** -/
theorem bind {m n : Nat} {p q : Parser α} {f g : α → Parser β}
    (hp : InStep v m u (p u) (q (u ++ v)))
    (hf : ∀ a rest, rest <:+ u → rest.length + m ≤ u.length →
      InStep v n rest (f a rest) (g a (rest ++ v))) :
    InStep v (m + n) u ((p >>= f) u) ((q >>= g) (u ++ v)) := by
  show InStep v (m + n) u (Parser.bind p f u) (Parser.bind q g (u ++ v))
  unfold Parser.bind
  match p u, hp with
  | ⟨.error e, rest, log⟩, hp =>
    exact ⟨hp.suffix, hp.within, fun a ha => (nomatch ha), by rw [hp.same]; rfl⟩
  | ⟨.ok a, rest, log⟩, hp =>
    have hearned : log.length + m + rest.length ≤ u.length := hp.earned a rfl
    have hfa := hf a rest hp.suffix (by omega)
    have hwithin := hfa.within
    refine ⟨hfa.suffix.trans hp.suffix, ?_, fun b hb => ?_, ?_⟩
    · simp only [List.length_append]
      omega
    · have hmore := hfa.earned b hb
      simp only [List.length_append]
      omega
    · rw [hp.same]
      dsimp only [Reply.ending, Except.mapError]
      rw [hfa.same]
      simp only [Reply.ending, List.map_append]
      rfl

end InStep

namespace Paced

theorem weaken {m : Nat} (h : Paced v credit u r s) (hm : m ≤ credit) : Paced v m u r s :=
  ⟨h.toInStep.weaken hm, h.spare⟩

theorem map (g : α → β) (h : Paced v credit u r s) : Paced v credit u (r.map g) (s.map g) := by
  obtain ⟨result, rest, log⟩ := r
  refine ⟨⟨h.suffix, h.within, fun b hb => ?_, ?_⟩, h.spare⟩
  · cases result with
    | ok a => exact h.earned a rfl
    | error f => cases hb
  · rw [h.same]
    cases result <;> rfl

theorem stay (a : α) : Paced v 0 u ⟨.ok a, u, []⟩ ⟨.ok a, u ++ v, []⟩ where
  suffix := List.suffix_refl u
  within := Nat.le_of_eq (Nat.zero_add _)
  earned _ _ := Nat.le_of_eq (Nat.zero_add _)
  same := rfl
  spare h hne := absurd h hne

theorem fail (fault : GrammarFault) :
    Paced v credit u (Parser.fail fault u : Reply α) (Parser.fail fault (u ++ v)) where
  suffix := List.suffix_refl u
  within := Nat.le_of_eq (Nat.zero_add _)
  earned _ ha := nomatch ha
  same := by
    simp only [Parser.fail, Reply.ending, Except.mapError, Failure.ending, List.head?_append,
      List.map_nil]
  spare h hne := absurd h hne

theorem bind {m n : Nat} {p q : Parser α} {f g : α → Parser β}
    (hp : Paced v m u (p u) (q (u ++ v)))
    (hf : ∀ a rest, rest <:+ u → rest.length + m ≤ u.length →
      Paced v n rest (f a rest) (g a (rest ++ v))) :
    Paced v (m + n) u ((p >>= f) u) ((q >>= g) (u ++ v)) := by
  refine ⟨hp.toInStep.bind fun a rest hsuffix hrest => (hf a rest hsuffix hrest).toInStep, ?_⟩
  show (Parser.bind p f u).rest = [] → u ≠ [] → (Parser.bind p f u).log.length < u.length
  unfold Parser.bind
  match p u, hp with
  | ⟨.error e, rest, log⟩, hp => exact hp.spare
  | ⟨.ok a, rest, log⟩, hp =>
    have hearned : log.length + m + rest.length ≤ u.length := hp.earned a rfl
    have hfa := hf a rest hp.suffix (by omega)
    intro hnil hne
    simp only [List.length_append]
    by_cases hrest : rest = []
    · -- The second step has no tokens, so it has no faults.
      subst hrest
      have hlt : log.length < u.length := hp.spare rfl hne
      have hnone := hfa.within
      rw [List.length_nil] at hnone
      omega
    · have hlt := hfa.spare hnil hrest
      omega

end Paced

/-- An assignment reads nothing and adds at most one fault, which is noticed at a token. -/
theorem exists_assignment_eq (left : Expr) (equals : Token) (value : Expr) :
    ∃ e notes, notes.length ≤ 1 ∧ (∀ v, notes.map (Failure.ending v) = notes) ∧
      ∀ ts, assignment left equals value ts = ⟨.ok e, ts, notes⟩ := by
  unfold assignment
  split
  · exact ⟨_, [], Nat.zero_le _, fun _ => rfl, fun _ => rfl⟩
  · exact ⟨_, [⟨.assignmentTarget, some equals⟩], Nat.le_refl _, fun _ => rfl, fun _ => rfl⟩

/-- The fault of an assignment is charged to its `=`. -/
theorem Paced.assign {p q : Parser Expr} (left : Expr) (t : Token)
    (h : Paced v 1 u (p u) (q (u ++ v))) :
    Paced v 0 (t :: u) ((p >>= assignment left t) u) ((q >>= assignment left t) (u ++ v)) := by
  show Paced v 0 (t :: u) (Parser.bind p _ u) (Parser.bind q _ (u ++ v))
  unfold Parser.bind
  match p u, h with
  | ⟨.error e, rest, log⟩, h =>
    rw [h.same]
    have hstep : InStep v 0 u (⟨.error e, rest, log⟩ : Reply Expr) _ :=
      ⟨h.suffix, h.within, fun _ ha => (nomatch ha), rfl⟩
    exact hstep.cons.weaken (Nat.zero_le _)
  | ⟨.ok value, rest, log⟩, h =>
    obtain ⟨e, notes, hnotes, hending, heq⟩ := exists_assignment_eq left t value
    have hearned : log.length + 1 + rest.length ≤ u.length := h.earned value rfl
    have hcount : (log ++ notes).length + rest.length ≤ u.length := by
      rw [List.length_append]
      omega
    have hstep : InStep v 0 u (⟨.ok e, rest, log ++ notes⟩ : Reply Expr)
        ⟨.ok e, rest ++ v, log.map (Failure.ending v) ++ notes⟩ := by
      refine ⟨h.suffix, hcount, fun _ _ => hcount, ?_⟩
      simp only [Reply.ending, List.map_append, hending]
      rfl
    rw [h.same]
    dsimp only [Reply.ending, Except.mapError]
    rw [heq, heq]
    exact hstep.cons.weaken (Nat.zero_le _)

theorem Paces.mono {m n k l : Nat} {p q : Parser α} (h : Paces v m k p q) (hm : n ≤ m)
    (hl : l ≤ k) : Paces v n l p q :=
  fun u hin hu => (h u hin (Nat.lt_of_lt_of_le hu hl)).weaken hm

/-- Where the first step has read something, the second one has a shorter list. -/
theorem Paces.bind {m n k l : Nat} {p q : Parser α} {f g : α → Parser β} (hp : Paces v m k p q)
    (hl : k ≤ l + m) (hf : ∀ a, Paces v n l (f a) (g a)) :
    Paces v (m + n) k (p >>= f) (q >>= g) := by
  intro u hin hu
  refine (hp u hin hu).bind fun a rest hsuffix hrest => hf a rest (hin.of_suffix hsuffix) ?_
  omega

theorem Paces.map {m k : Nat} {p q : Parser α} (h : Paces v m k p q) (g : α → β) :
    Paces v m k (fun ts => (p ts).map g) (fun ts => (q ts).map g) :=
  fun u hin hu => (h u hin hu).map g

theorem paces_pure (k : Nat) (a : α) : Paces v 0 k (Pure.pure a) (Pure.pure a) :=
  fun _ _ _ => Paced.stay a

theorem paces_fail (k : Nat) (fault : GrammarFault) :
    Paces v credit k (fail fault : Parser α) (fail fault) :=
  fun _ _ _ => Paced.fail fault

/-! ### Ways that the next token decides -/

theorem branches_expect (kind : Kind) (fault : GrammarFault) :
    Branches kind (expect kind fault) (fun _ => Pure.pure ()) (fail fault) :=
  ⟨rfl, fun _ _ => rfl⟩

theorem branches_assigned (expression : Parser Expr) (left : Expr) :
    Branches (.symbol .equal) (assigned expression left)
      (fun t => expression >>= assignment left t) (Pure.pure left) :=
  ⟨rfl, fun _ _ => rfl⟩

theorem branches_initialValue (expression : Parser Expr) :
    Branches (.symbol .equal) (varDeclaration.initialValue expression)
      (fun _ ts => (expression ts).map some) (Pure.pure none) :=
  ⟨rfl, fun _ _ => rfl⟩

theorem branches_exprBefore (kind : Kind) (expression : Parser Expr) :
    Branches kind (exprBefore kind expression) (fun t ts => ⟨.ok none, t :: ts, []⟩)
      (fun ts => (expression ts).map some) :=
  ⟨rfl, fun _ _ => rfl⟩

theorem branches_attempt (expression : Parser Expr) (statement : Parser Stmt) :
    Branches (.keyword .varKw) (attempt expression statement)
      (fun _ => varDeclaration expression) statement :=
  ⟨rfl, fun _ _ => rfl⟩

theorem branches_otherwise (statement : Parser Stmt) (condition : Expr) (yes : Stmt) :
    Branches (.keyword .elseKw) (otherwise statement condition yes)
      (fun _ ts => (statement ts).map (.ifElse condition yes))
      (Pure.pure (.ifThen condition yes)) :=
  ⟨rfl, fun _ _ => rfl⟩

section Steps

variable (hv : Closing v)

include hv

/-- **The end of the input is none of the kinds that are looked for**, so it goes the way of a list
that runs out. -/
theorem Paces.branch {k : Nat} {kind : Kind} (hkind : kind ≠ .eof) {p q : Parser α}
    {yes yes' : Token → Parser α} {no no' : Parser α} (hp : Branches kind p yes no)
    (hq : Branches kind q yes' no')
    (hyes : ∀ t u, Inside u → u.length + 1 < k →
      Paced v credit (t :: u) (yes t u) (yes' t (u ++ v)))
    (hno : Paces v credit k no no') : Paces v credit k p q := by
  intro u hin hu
  cases u with
  | nil =>
    have hend : q v = no' v := by
      cases v with
      | nil => exact hq.nil
      | cons e junk => rw [hq.cons, if_neg (by rw [hv e rfl]; exact hkind.symm)]
    rw [List.nil_append, hend, hp.nil]
    exact hno [] hin hu
  | cons t u =>
    have helse := hno (t :: u) hin hu
    rw [List.cons_append] at helse ⊢
    rw [hp.cons, hq.cons]
    by_cases ht : t.kind = kind
    · rw [if_pos ht, if_pos ht]
      exact hyes t u hin.tail hu
    · rw [if_neg ht, if_neg ht]
      exact helse

theorem paces_expect (k : Nat) (kind : Kind) (fault : GrammarFault) (hkind : kind ≠ .eof) :
    Paces v 1 k (expect kind fault) (expect kind fault) :=
  Paces.branch hv hkind (branches_expect kind fault) (branches_expect kind fault)
    (fun _ _ _ _ => (Paced.stay ()).cons) (paces_fail k fault)

/-! ### Expressions -/

section Expressions

variable {k : Nat} {expression expression' : Parser Expr} (hE : Paces v 1 k expression expression')

include hE

theorem paces_primary : Paces v 1 (k + 1) (primary expression) (primary expression') := by
  intro u hin hu
  cases u with
  | nil =>
    have hend : primary expression' v = fail .expression v := by
      cases v with
      | nil => rfl
      | cons e junk => simp only [primary, hv e rfl, literal?]
    rw [List.nil_append, hend]
    exact Paced.fail _
  | cons t u =>
    simp only [List.cons_append, primary]
    split
    · exact (Paced.stay _).cons
    · have hgrouping := hE.bind (Nat.le_succ k) fun e =>
        (paces_expect hv k (.symbol .rightParen) .parenAfterExpression (by simp)).bind
          (Nat.le_succ k) fun _ => paces_pure k (Expr.grouping e)
      exact (hgrouping u hin.tail (Nat.lt_of_succ_lt_succ hu)).cons.weaken (by decide)
    · split
      · exact (Paced.stay _).cons
      · exact Paced.fail _

theorem paces_unary : Paces v 1 (k + 1) (unary expression) (unary expression') := by
  intro u
  induction u with
  | nil =>
    intro hin hu
    have hend : unary expression' v = primary expression' v := by
      cases v with
      | nil => rfl
      | cons e junk => rw [unary, if_neg (by rw [hv e rfl]; decide)]
    rw [List.nil_append, hend]
    exact paces_primary hv hE [] hin hu
  | cons t u ih =>
    intro hin hu
    by_cases ht : isUnary t.kind = true
    · simp only [List.cons_append, unary, if_pos ht]
      have hrest := ih hin.tail (Nat.lt_of_succ_lt hu)
      exact (hrest.map (Expr.unary t)).cons.weaken (by decide)
    · simp only [List.cons_append, unary, if_neg ht]
      exact paces_primary hv hE (t :: u) hin hu

theorem paces_assigned (left : Expr) :
    Paces v 0 (k + 1) (assigned expression left) (assigned expression' left) := by
  refine Paces.branch hv (by simp) (branches_assigned expression left)
    (branches_assigned expression' left) (fun t u hin hu => ?_) (paces_pure _ left)
  exact (hE u hin (Nat.lt_of_succ_lt_succ hu)).assign left t

end Expressions

/-- The expressions of a reader are in step on lists of fewer than `k` tokens, with those of the
parsers whose bounds are no less than the number of tokens. -/
structure Reader.ExpressionsPace (R : Reader) (v : List Token) (k : Nat) : Prop where
  expression : ∀ b, k ≤ b + 1 → Paces v 1 k (Parser.expression b) R.expression
  rounds : ∀ l ls left b c, k ≤ b + 1 → k ≤ c + 1 →
    Paces v 0 k (operators l (ls.foldr (Parser.leveled c) (unary (Parser.expression c))) b left)
      (R.rounds l ls left)

theorem paces_leveled {R : Reader} {k c : Nat} (h : R.ExpressionsPace v k) (hc : k ≤ c + 1)
    (ls : List Level) : Paces v 1 (k + 1)
      (ls.foldr (Parser.leveled c) (unary (Parser.expression c))) (R.leveled ls) := by
  induction ls with
  | nil => exact paces_unary hv (h.expression c hc)
  | cons l ls ih => exact ih.bind (Nat.le_refl _) fun left => h.rounds l ls left c c hc hc

theorem paces_expand_rounds {R : Reader} {k : Nat} (h : R.ExpressionsPace v k) (l : Level)
    (ls : List Level) (left : Expr) {b c : Nat} (hb : k ≤ b) (hc : k ≤ c) :
    Paces v 0 (k + 1)
      (operators l (ls.foldr (Parser.leveled c) (unary (Parser.expression c))) b left)
      (R.expand.rounds l ls left) := by
  intro u hin hu
  cases u with
  | nil =>
    have hstop : ∀ (p : Parser Expr), operators l p b left [] = ⟨.ok left, [], []⟩ := by
      intro p
      cases b <;> rfl
    have hend : R.expand.rounds l ls left v = ⟨.ok left, v, []⟩ := by
      cases v with
      | nil => rfl
      | cons e junk => simp only [Reader.expand, hv e rfl, Level.of?, reduceCtorEq, if_false]
    rw [List.nil_append, hstop, hend]
    exact Paced.stay left
  | cons t u =>
    have hu : u.length < k := Nat.lt_of_succ_lt_succ hu
    obtain _ | b := b
    · omega
    by_cases ht : Level.of? t.kind = some l
    · simp only [List.cons_append, operators, Reader.expand, if_pos ht]
      have hround := (paces_leveled hv h (Nat.le_succ_of_le hc) ls).bind (Nat.le_refl _)
        fun right => h.rounds l ls (l.node left t right) b c hb (Nat.le_succ_of_le hc)
      exact (hround u hin.tail (Nat.lt_succ_of_lt hu)).cons.weaken (Nat.zero_le _)
    · simp only [List.cons_append, operators, Reader.expand, if_neg ht]
      exact Paced.stay left

theorem paces_expand_expression {R : Reader} {k : Nat} (h : R.ExpressionsPace v k) {b : Nat}
    (hb : k ≤ b) : Paces v 1 (k + 1) (Parser.expression b) R.expand.expression := by
  have hsucc : ∀ b, k ≤ b + 1 → Paces v 1 (k + 1) (Parser.expression (b + 1)) R.expand.expression :=
    fun b hb => (paces_leveled hv h hb Level.all).bind (Nat.le_succ _)
      fun left => paces_assigned hv (h.expression b hb) left
  cases b with
  | succ b => exact hsucc b hb
  | zero =>
    intro u hin hu
    obtain rfl : u = [] := List.eq_nil_of_length_eq_zero (by omega)
    rw [expression_nil, ← expression_nil 1]
    exact hsucc 0 (Nat.le_succ_of_le hb) [] hin hu

/-- **One expansion reads expressions of one more token.** -/
theorem Reader.ExpressionsPace.expand {R : Reader} {k : Nat} (h : R.ExpressionsPace v k) :
    R.expand.ExpressionsPace v (k + 1) where
  expression _ hb := paces_expand_expression hv h (Nat.le_of_succ_le_succ hb)
  rounds l ls left _ _ hb hc :=
    paces_expand_rounds hv h l ls left (Nat.le_of_succ_le_succ hb) (Nat.le_of_succ_le_succ hc)

/-! ### Recovery -/

/-- In place the same tokens are skipped, and the end is not. -/
theorem synchronize_append {u : List Token} (hu : Inside u) :
    synchronize (u ++ v) = skipStatement u ++ v := by
  fun_induction skipStatement u with
  | case1 =>
    cases v with
    | nil => rfl
    | cons e junk =>
      cases junk <;> rw [List.nil_append, synchronize, if_pos (hv e rfl)]
  | case2 t =>
    have ht := hu t List.mem_cons_self
    cases v with
    | nil => rw [List.append_nil, synchronize, if_neg ht, List.append_nil]
    | cons e junk =>
      rw [List.cons_append, List.nil_append, synchronize, if_neg ht,
        if_pos (by simp [hv e rfl])]
  | case3 t next ts hstop =>
    have ht := hu t List.mem_cons_self
    rw [List.cons_append, List.cons_append, synchronize, if_neg ht, if_pos ?_]
    rw [Bool.or_assoc, hstop, Bool.or_true]
  | case4 t next ts hgo ih =>
    have ht := hu t List.mem_cons_self
    have hnext := hu next (List.mem_cons_of_mem _ List.mem_cons_self)
    rw [List.cons_append, List.cons_append, synchronize, if_neg ht, if_neg ?_]
    · exact ih hu.tail
    · rw [Bool.or_assoc, Bool.eq_false_iff.mpr hgo, decide_eq_false hnext]
      decide

/-- **A failure is charged to a token that is skipped**, or at the end of the input to the one that
was spared. -/
theorem tallies_recovering {u : List Token} (hne : u ≠ []) (hin : Inside u) {p q : Parser α}
    (h : Paced v 1 u (p u) (q (u ++ v))) :
    Tallies v (fun o => o.toList.length) u (recovering p u) (resuming q (u ++ v)) ∧
      (recovering p u).rest.length < u.length := by
  unfold recovering resuming
  rw [h.same]
  match p u, h with
  | ⟨.ok a, rest, log⟩, h =>
    have hearned : log.length + 1 + rest.length ≤ u.length := h.earned a rfl
    refine ⟨⟨some a, rest, log, rfl, rfl, h.suffix, ?_⟩, ?_⟩
    · simp only [Option.toList_some, List.length_singleton]
      omega
    · dsimp only
      omega
  | ⟨.error f, rest, log⟩, h =>
    obtain ⟨skipped, hskipped, hpos⟩ := exists_skipped rest
    have hwithin : log.length + rest.length ≤ u.length := h.within
    have hlength : rest.length = skipped.length + (skipStatement rest).length := by
      rw [← List.length_append, ← hskipped]
    have hcount : log.length + 1 + (skipStatement rest).length ≤ u.length := by
      by_cases hrest : rest = []
      · have hlt : log.length < u.length := h.spare hrest hne
        rw [hrest]
        exact hlt
      · have hskip := List.length_pos_iff.mpr (hpos hrest)
        omega
    have hsuffix : skipStatement rest <:+ u :=
      List.IsSuffix.trans ⟨skipped, hskipped.symm⟩ h.suffix
    refine ⟨⟨none, skipStatement rest, log ++ [f], rfl, ?_, hsuffix, ?_⟩, ?_⟩
    · simp only [Reply.ending, Except.mapError, synchronize_append hv (hin.of_suffix h.suffix),
        List.map_append, List.map_cons, List.map_nil]
    · simp only [Option.toList_none, List.length_nil, List.length_append, List.length_singleton]
      omega
    · dsimp only
      omega

/-! ### Declarations and statements -/

section Statements

variable {k : Nat} {expression expression' : Parser Expr} (hE : Paces v 1 k expression expression')

include hE

theorem paces_initialValue : Paces v 0 (k + 1) (varDeclaration.initialValue expression)
    (varDeclaration.initialValue expression') := by
  refine Paces.branch hv (by simp) (branches_initialValue expression)
    (branches_initialValue expression') (fun t u hin hu => ?_) (paces_pure _ none)
  have hvalue := hE u hin (Nat.lt_of_succ_lt_succ hu)
  exact (hvalue.map some).cons.weaken (Nat.zero_le _)

theorem paces_varDeclaration :
    Paces v 1 (k + 1) (varDeclaration expression) (varDeclaration expression') := by
  intro u hin hu
  cases u with
  | nil =>
    have hend : varDeclaration expression' v = fail .variableName v := by
      cases v with
      | nil => rfl
      | cons e junk => simp only [varDeclaration, hv e rfl]
    rw [List.nil_append, hend]
    exact Paced.fail _
  | cons t u =>
    simp only [List.cons_append, varDeclaration]
    split
    · have hrest := (paces_initialValue hv hE).bind (Nat.le_refl _) fun initial =>
        (paces_expect hv _ (.symbol .semicolon) .semicolonAfterDeclaration (by simp)).bind
          (Nat.le_succ _) fun _ => paces_pure _ (Stmt.declare t initial)
      exact (hrest u hin.tail (Nat.lt_of_succ_lt hu)).cons.weaken (by decide)
    · exact Paced.fail _

/-- An expression and a semicolon, whatever is made of them. -/
theorem paces_terminated (fault : GrammarFault) (node : Expr → Stmt) :
    Paces v 2 k
      (do
        let e ← expression
        expect (.symbol .semicolon) fault
        return node e)
      (do
        let e ← expression'
        expect (.symbol .semicolon) fault
        return node e) :=
  hE.bind (Nat.le_succ k) fun e => (paces_expect hv k _ fault (by simp)).bind (Nat.le_succ k)
    fun _ => paces_pure k (node e)

theorem paces_loopInitial :
    Paces v 1 k (loopInitial expression) (loopInitial expression') := by
  have hexpr : Paces v 1 k (exprStatement expression) (exprStatement expression') :=
    (paces_terminated hv hE _ .expr).mono (Nat.le_succ 1) (Nat.le_refl k)
  intro u hin hu
  cases u with
  | nil =>
    have hend : loopInitial expression' v = (exprStatement expression' v).map some := by
      cases v with
      | nil => rfl
      | cons e junk => simp only [loopInitial, hv e rfl]
    rw [List.nil_append, hend]
    exact (hexpr [] hin hu).map some
  | cons t u =>
    simp only [List.cons_append, loopInitial]
    split
    · exact (Paced.stay none).cons
    · have hu' : u.length < k + 1 := Nat.lt_succ_of_lt (Nat.lt_of_succ_lt hu)
      have hdeclaration := paces_varDeclaration hv hE u hin.tail hu'
      exact (hdeclaration.map some).cons.weaken (by decide)
    · exact (hexpr (t :: u) hin hu).map some

theorem paces_exprBefore (kind : Kind) (hkind : kind ≠ .eof) :
    Paces v 0 k (exprBefore kind expression) (exprBefore kind expression') :=
  Paces.branch hv hkind (branches_exprBefore kind expression)
    (branches_exprBefore kind expression') (fun _ _ _ _ => Paced.stay none)
    ((hE.map some).mono (Nat.zero_le _) (Nat.le_refl k))

variable {statement statement' : Parser Stmt} (hS : Paces v 1 k statement statement')

include hS

theorem paces_attempt : Paces v 1 k (attempt expression statement)
    (attempt expression' statement') := by
  refine Paces.branch hv (by simp) (branches_attempt expression statement)
    (branches_attempt expression' statement') (fun t u hin hu => ?_) hS
  have hdeclaration := paces_varDeclaration hv hE u hin (Nat.lt_of_succ_lt (Nat.lt_succ_of_lt hu))
  exact hdeclaration.cons.weaken (by decide)

omit hE in
theorem paces_otherwise (condition : Expr) (yes : Stmt) :
    Paces v 0 k (otherwise statement condition yes) (otherwise statement' condition yes) := by
  refine Paces.branch hv (by simp) (branches_otherwise statement condition yes)
    (branches_otherwise statement' condition yes) (fun t u hin hu => ?_) (paces_pure _ _)
  have hno := hS u hin (Nat.lt_of_succ_lt hu)
  exact (hno.map _).cons.weaken (Nat.zero_le _)

theorem paces_conditional :
    Paces v 4 k (conditional expression statement) (conditional expression' statement') :=
  (paces_expect hv k _ _ (by simp)).bind (Nat.le_succ k) fun _ =>
    hE.bind (Nat.le_succ k) fun c =>
    (paces_expect hv k _ _ (by simp)).bind (Nat.le_succ k) fun _ =>
    hS.bind (Nat.le_succ k) fun yes => paces_otherwise hv hS c yes

theorem paces_whileLoop :
    Paces v 4 k (whileLoop expression statement) (whileLoop expression' statement') :=
  (paces_expect hv k _ _ (by simp)).bind (Nat.le_succ k) fun _ =>
    hE.bind (Nat.le_succ k) fun c =>
    (paces_expect hv k _ _ (by simp)).bind (Nat.le_succ k) fun _ =>
    hS.bind (Nat.le_succ k) fun body => paces_pure k (Stmt.loop c body)

theorem paces_forLoop :
    Paces v 5 k (forLoop expression statement) (forLoop expression' statement') :=
  (paces_expect hv k _ _ (by simp)).bind (Nat.le_succ k) fun _ =>
    (paces_loopInitial hv hE).bind (Nat.le_succ k) fun initial =>
    (paces_exprBefore hv hE _ (by simp)).bind (Nat.le_refl k) fun condition =>
    (paces_expect hv k _ _ (by simp)).bind (Nat.le_succ k) fun _ =>
    (paces_exprBefore hv hE _ (by simp)).bind (Nat.le_refl k) fun increment =>
    (paces_expect hv k _ _ (by simp)).bind (Nat.le_succ k) fun _ =>
    hS.bind (Nat.le_succ k) fun body =>
    paces_pure k (countingLoop initial condition increment body)

end Statements

/-- The statements of a reader, and its lists of declarations, are in step on lists of fewer than
`k` tokens. -/
structure Reader.StatementsPace (R : Reader) (v : List Token) (k : Nat) : Prop where
  statement : ∀ b, k ≤ b + 1 → Paces v 1 k (Parser.statement b) R.statement
  declarations : ∀ stops b c, k ≤ b + 1 → k ≤ c + 1 → ∀ u, Inside u → u.length < k →
    Tallies v List.length u
      (Parser.declarations stops
        (Parser.declaration (Parser.expression c) (Parser.statement c)) b u)
      (R.declarations stops (u ++ v))

omit hv in
theorem Tallies.inStep {count : α → Nat} (h : Tallies v count u r s) : InStep v 0 u r s := by
  obtain ⟨a, rest, log, rfl, rfl, hsuffix, hcount⟩ := h
  refine ⟨hsuffix, ?_, fun _ _ => ?_, rfl⟩
  · dsimp only
    omega
  · dsimp only
    omega

theorem paces_block {R : Reader} {k b : Nat} (h : R.StatementsPace v k) (hb : k ≤ b + 1)
    {u : List Token} (hin : Inside u) (hu : u.length < k) : InStep v 1 u
      (Parser.block b (Parser.declaration (Parser.expression b) (Parser.statement b)) u)
      (R.block (u ++ v)) := by
  have hbody := h.declarations (· = .symbol .rightBrace) b b hb hb u hin hu
  have hend : ∀ body, Paces v 1 k
      (do
        expect (.symbol .rightBrace) .braceAfterBlock
        return Stmt.block body)
      (do
        expect (.symbol .rightBrace) .braceAfterBlock
        return Stmt.block body) := fun body =>
    (paces_expect hv k _ _ (by simp)).bind (Nat.le_succ k) fun _ => paces_pure k (Stmt.block body)
  refine hbody.inStep.bind fun body rest hsuffix hrest =>
    (hend body rest (hin.of_suffix hsuffix) ?_).toInStep
  omega

/-- One expansion reads statements of one more token.  The expressions that a statement may begin
with have that token already. -/
theorem paces_expand_statement {R : Reader} {k b : Nat}
    (hE : ∀ j ≤ k + 1, R.ExpressionsPace v j) (h : R.StatementsPace v k) (hb : k ≤ b) :
    Paces v 1 (k + 1) (Parser.statement b) R.expand.statement := by
  intro u hin hu
  cases u with
  | nil =>
    have hend : R.expand.statement v = exprStatement R.expression v := by
      cases v with
      | nil => rfl
      | cons e junk => simp only [Reader.expand, statementOver, hv e rfl]
    have hnil : Parser.statement b [] = exprStatement (Parser.expression 0) [] := by
      rw [statement_nil]
      rfl
    rw [List.nil_append, hend, hnil]
    have hone := (hE 1 (Nat.succ_le_succ (Nat.zero_le k))).expression 0 (Nat.le_refl 1)
    exact (paces_terminated hv hone _ .expr [] hin Nat.one_pos).weaken (by decide)
  | cons t u =>
    have hu' : u.length < k := Nat.lt_of_succ_lt_succ hu
    obtain _ | b := b
    · omega
    have hbelow := (hE k (Nat.le_succ k)).expression b hb
    have hS := h.statement b hb
    rw [statement_succ]
    simp only [List.cons_append, Reader.expand, statementOver]
    split
    · exact (paces_conditional hv hbelow hS u hin.tail hu').cons.weaken (by decide)
    · exact (paces_terminated hv hbelow _ .print u hin.tail hu').cons.weaken (by decide)
    · exact (paces_block hv h hb hin.tail hu').cons.weaken (by decide)
    · exact (paces_whileLoop hv hbelow hS u hin.tail hu').cons.weaken (by decide)
    · exact (paces_forLoop hv hbelow hS u hin.tail hu').cons.weaken (by decide)
    · have hwhole := (hE (k + 1) (Nat.le_refl _)).expression (b + 1) (Nat.succ_le_succ hb)
      exact (paces_terminated hv hwhole _ .expr (t :: u) hin hu).weaken (by decide)

/-- **A declaration before the end of the input reads or skips a token**, and never the end. -/
theorem tallies_declaration {R : Reader} {k c : Nat} (hE : R.ExpressionsPace v k) (hc : k ≤ c + 1)
    (hS : Paces v 1 k (Parser.statement c) R.statement) {u : List Token} (hne : u ≠ [])
    (hin : Inside u) (hu : u.length < k) :
    Tallies v (fun o => o.toList.length) u
        (Parser.declaration (Parser.expression c) (Parser.statement c) u) (R.declaration (u ++ v)) ∧
      (Parser.declaration (Parser.expression c) (Parser.statement c) u).rest.length < u.length := by
  rw [declaration_eq, Reader.declaration]
  exact tallies_recovering hv hne hin (paces_attempt hv (hE.expression c hc) hS u hin hu)

omit hv in
theorem Tallies.cons {p q : Parser (Option Stmt)} {f g : Parser (List Stmt)}
    (h : Tallies v (fun o => o.toList.length) u (p u) (q (u ++ v)))
    (hf : ∀ rest, rest <:+ u → rest = (p u).rest →
      Tallies v List.length rest (f rest) (g (rest ++ v))) :
    Tallies v List.length u
      ((do
        let first ← p
        let others ← f
        return first.toList ++ others : Parser (List Stmt)) u)
      ((do
        let first ← q
        let others ← g
        return first.toList ++ others : Parser (List Stmt)) (u ++ v)) := by
  obtain ⟨first, rest, log, hp, hq, hsuffix, hcount⟩ := h
  obtain ⟨others, rest', log', hf, hg, hsuffix', hcount'⟩ := hf rest hsuffix (by rw [hp])
  refine ⟨first.toList ++ others, rest', log ++ log', ?_, ?_, hsuffix'.trans hsuffix, ?_⟩
  · simp only [Bind.bind, Parser.bind, Pure.pure, Parser.pure, hp, hf, List.append_nil]
  · simp only [Bind.bind, Parser.bind, Pure.pure, Parser.pure, hq, hg, List.append_nil,
      List.map_append]
  · dsimp only at hcount
    rw [List.length_append, List.length_append]
    omega

theorem tallies_expand_declarations {R : Reader} {k b c : Nat} (stops : Kind → Bool)
    (hE : R.ExpressionsPace v (k + 1)) (h : R.StatementsPace v k)
    (hS : Paces v 1 (k + 1) (Parser.statement c) R.statement) (hb : k ≤ b) (hc : k ≤ c)
    {u : List Token} (hin : Inside u) (hu : u.length < k + 1) :
    Tallies v List.length u
      (Parser.declarations stops
        (Parser.declaration (Parser.expression c) (Parser.statement c)) b u)
      (R.expand.declarations stops (u ++ v)) := by
  cases u with
  | nil =>
    have hstop : ∀ p : Parser (Option Stmt),
        Parser.declarations stops p b [] = ⟨.ok [], [], []⟩ := by
      intro p
      cases b <;> rfl
    have hend : R.expand.declarations stops v = ⟨.ok [], v, []⟩ := by
      cases v with
      | nil => rfl
      | cons e junk => simp only [Reader.expand, hv e rfl, decide_true, Bool.true_or, if_true]
    rw [List.nil_append, hstop, hend]
    exact ⟨[], [], [], rfl, rfl, List.suffix_refl _, Nat.le_refl _⟩
  | cons t u =>
    obtain _ | b := b
    · simp only [List.length_cons] at hu
      omega
    have ht := hin t List.mem_cons_self
    by_cases hstops : stops t.kind = true
    · simp only [List.cons_append, Parser.declarations, Reader.expand, hstops, Bool.or_true,
        if_true]
      exact ⟨[], t :: u, [], rfl, rfl, List.suffix_refl _, Nat.le_of_eq (by simp)⟩
    · obtain ⟨hfirst, hlt⟩ := tallies_declaration hv hE (Nat.succ_le_succ hc) hS
        (List.cons_ne_nil t u) hin hu
      simp only [List.cons_append, Parser.declarations, Reader.expand, ht, decide_false, hstops,
        Bool.or_self]
      refine hfirst.cons fun rest hsuffix hrest => ?_
      subst hrest
      exact h.declarations stops b c hb (Nat.le_succ_of_le hc) _ (hin.of_suffix hsuffix) (by omega)

end Steps

end Parser

end Lox
