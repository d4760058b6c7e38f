import Lox.Proofs.Grammar.Expressions

/-!
# Where an `else` belongs

The tokens of a derivation have a derivation with its `else`s near as well, and it is proper if the
first one is.  An `else` that belongs to an `if` too far back is taken away from it and handed to
the first branch, which gives it to the nearest `if` at its end that has none (`withElse`).

The two derivations have the same expressions at the same places.  So they have the same faults, and
they go on to have the same tokens when other expressions are put there
(`Declaration.exists_allRegrouped`).
-/

namespace Lox

namespace Grammar

namespace Statement

/-- The statement with one more `else` after it, given to the nearest `if` at its end that has none.
-/
def withElse (elseKw : Terminal (.keyword .elseKw)) (no : Statement) : Statement → Statement
  | .ifThen ifKw c yes =>
    if yes.endsOpen then .ifThen ifKw c (withElse elseKw no yes) else .ifElse ifKw c yes elseKw no
  | .ifElse ifKw c yes elseKw' no' => .ifElse ifKw c yes elseKw' (withElse elseKw no no')
  | .whileLoop whileKw c body => .whileLoop whileKw c (withElse elseKw no body)
  | .forLoop forKw header body => .forLoop forKw header (withElse elseKw no body)
  | s => s

variable (elseKw : Terminal (.keyword .elseKw)) (no : Statement)

/-- The other statements do not end open. -/
theorem endsOpen_eq_false {s : Statement} (h₁ : ∀ ifKw c yes, s = .ifThen ifKw c yes → False)
    (h₂ : ∀ ifKw c yes elseKw no, s = .ifElse ifKw c yes elseKw no → False)
    (h₃ : ∀ whileKw c body, s = .whileLoop whileKw c body → False)
    (h₄ : ∀ forKw header body, s = .forLoop forKw header body → False) : s.endsOpen = false := by
  cases s with
  | expr _ _ => rfl
  | print _ _ _ => rfl
  | block _ _ _ => rfl
  | ifThen ifKw c yes => exact (h₁ ifKw c yes rfl).elim
  | ifElse ifKw c yes elseKw no => exact (h₂ ifKw c yes elseKw no rfl).elim
  | whileLoop whileKw c body => exact (h₃ whileKw c body rfl).elim
  | forLoop forKw header body => exact (h₄ forKw header body rfl).elim

theorem tokens_withElse (s : Statement) (h : s.endsOpen = true) :
    (withElse elseKw no s).tokens = s.tokens ++ elseKw.1 :: no.tokens := by
  fun_induction withElse elseKw no s with
  | case1 ifKw c yes hopen ih => simp [tokens, ih hopen]
  | case2 ifKw c yes hclosed => simp [tokens]
  | case3 ifKw c yes elseKw' no' ih => simp [tokens, ih h]
  | case4 whileKw c body ih => simp [tokens, ih h]
  | case5 forKw header body ih => simp [tokens, ih h]
  | case6 s h₁ h₂ h₃ h₄ =>
    rw [endsOpen_eq_false h₁ h₂ h₃ h₄] at h
    cases h

theorem near_withElse (s : Statement) (h : s.endsOpen = true) (hs : s.Near) (hno : no.Near) :
    (withElse elseKw no s).Near := by
  fun_induction withElse elseKw no s with
  | case1 ifKw c yes hopen ih => exact ih hopen hs
  | case2 ifKw c yes hclosed => exact ⟨by simpa using hclosed, hs, hno⟩
  | case3 ifKw c yes elseKw' no' ih => exact ⟨hs.1, hs.2.1, ih h hs.2.2⟩
  | case4 whileKw c body ih => exact ih h hs
  | case5 forKw header body ih => exact ih h hs
  | case6 s h₁ h₂ h₃ h₄ =>
    rw [endsOpen_eq_false h₁ h₂ h₃ h₄] at h
    cases h

theorem expressions_withElse (s : Statement) (h : s.endsOpen = true) :
    (withElse elseKw no s).expressions = s.expressions ++ no.expressions := by
  fun_induction withElse elseKw no s with
  | case1 ifKw c yes hopen ih => simp [expressions, ih hopen]
  | case2 ifKw c yes hclosed => simp [expressions]
  | case3 ifKw c yes elseKw' no' ih => simp [expressions, ih h]
  | case4 whileKw c body ih => simp [expressions, ih h]
  | case5 forKw header body ih => simp [expressions, ih h]
  | case6 s h₁ h₂ h₃ h₄ =>
    rw [endsOpen_eq_false h₁ h₂ h₃ h₄] at h
    cases h

theorem mapExpr_withElse (f : Expression .assignment → Expression .assignment) (s : Statement)
    (h : s.endsOpen = true) :
    (withElse elseKw no s).mapExpr f = withElse elseKw (no.mapExpr f) (s.mapExpr f) := by
  fun_induction withElse elseKw no s with
  | case1 ifKw c yes hopen ih => simp [mapExpr, withElse, endsOpen_mapExpr, hopen, ih hopen]
  | case2 ifKw c yes hclosed => simp [mapExpr, withElse, endsOpen_mapExpr, hclosed]
  | case3 ifKw c yes elseKw' no' ih => simp [mapExpr, withElse, ih h]
  | case4 whileKw c body ih => simp [mapExpr, withElse, ih h]
  | case5 forKw header body ih => simp [mapExpr, withElse, ih h]
  | case6 s h₁ h₂ h₃ h₄ =>
    rw [endsOpen_eq_false h₁ h₂ h₃ h₄] at h
    cases h

theorem tokens_mapExpr_withElse (f : Expression .assignment → Expression .assignment)
    (s : Statement) (h : s.endsOpen = true) :
    ((withElse elseKw no s).mapExpr f).tokens =
      (s.mapExpr f).tokens ++ elseKw.1 :: (no.mapExpr f).tokens := by
  rw [mapExpr_withElse _ _ _ _ h, tokens_withElse _ _ _ (s.endsOpen_mapExpr.trans h)]

end Statement

mutual

theorem Statement.exists_regrouped (s : Statement) :
    ∃ s' : Statement, s'.Near ∧ s'.expressions = s.expressions ∧
      ∀ f, (s'.mapExpr f).tokens = (s.mapExpr f).tokens := by
  cases s with
  | expr e semicolon => exact ⟨.expr e semicolon, trivial, rfl, fun _ => rfl⟩
  | print printKw e semicolon => exact ⟨.print printKw e semicolon, trivial, rfl, fun _ => rfl⟩
  | block lbrace body rbrace =>
    obtain ⟨body', hn, -, he, ht⟩ := Declaration.exists_allRegrouped body
    exact ⟨.block lbrace body' rbrace, hn, by simp only [Statement.expressions, he],
      fun f => by simp only [Statement.mapExpr, Statement.tokens, ht]⟩
  | ifThen ifKw c yes =>
    obtain ⟨yes', hn, he, ht⟩ := yes.exists_regrouped
    exact ⟨.ifThen ifKw c yes', hn, by simp only [Statement.expressions, he],
      fun f => by simp only [Statement.mapExpr, Statement.tokens, ht]⟩
  | ifElse ifKw c yes elseKw no =>
    obtain ⟨yes', hny, hey, hty⟩ := yes.exists_regrouped
    obtain ⟨no', hnn, hen, htn⟩ := no.exists_regrouped
    cases hopen : yes'.endsOpen with
    | false =>
      exact ⟨.ifElse ifKw c yes' elseKw no', ⟨hopen, hny, hnn⟩,
        by simp only [Statement.expressions, hey, hen],
        fun f => by simp only [Statement.mapExpr, Statement.tokens, hty, htn]⟩
    | true =>
      -- The first branch can take the `else`, so it belongs there.
      exact ⟨.ifThen ifKw c (Statement.withElse elseKw no' yes'),
        Statement.near_withElse _ _ yes' hopen hny hnn,
        by simp only [Statement.expressions, Statement.expressions_withElse _ _ yes' hopen, hey,
          hen],
        fun f => by
          rw [Statement.mapExpr, Statement.tokens,
            Statement.tokens_mapExpr_withElse _ _ _ yes' hopen, hty, htn, Statement.mapExpr,
            Statement.tokens]⟩
  | whileLoop whileKw c body =>
    obtain ⟨body', hn, he, ht⟩ := body.exists_regrouped
    exact ⟨.whileLoop whileKw c body', hn, by simp only [Statement.expressions, he],
      fun f => by simp only [Statement.mapExpr, Statement.tokens, ht]⟩
  | forLoop forKw header body =>
    obtain ⟨body', hn, he, ht⟩ := body.exists_regrouped
    exact ⟨.forLoop forKw header body', hn, by simp only [Statement.expressions, he],
      fun f => by simp only [Statement.mapExpr, Statement.tokens, ht]⟩

theorem Declaration.exists_regrouped (d : Declaration) :
    ∃ d' : Declaration, d'.Near ∧ d'.expressions = d.expressions ∧
      ∀ f, (d'.mapExpr f).tokens = (d.mapExpr f).tokens := by
  cases d with
  | declare v => exact ⟨.declare v, trivial, rfl, fun _ => rfl⟩
  | statement s =>
    obtain ⟨s', hn, he, ht⟩ := s.exists_regrouped
    exact ⟨.statement s', hn, he, ht⟩

/-- **The `else`s can be brought near without touching the expressions.** -/
theorem Declaration.exists_allRegrouped (ds : List Declaration) :
    ∃ ds' : List Declaration, Declaration.AllNear ds' ∧ ds'.length = ds.length ∧
      Declaration.expressionsOf ds' = Declaration.expressionsOf ds ∧
      ∀ f, Declaration.tokensOf (Declaration.mapExprs f ds') =
        Declaration.tokensOf (Declaration.mapExprs f ds) := by
  cases ds with
  | nil => exact ⟨[], trivial, rfl, rfl, fun _ => rfl⟩
  | cons d ds =>
    obtain ⟨d', hnd, hed, htd⟩ := d.exists_regrouped
    obtain ⟨ds', hnds, hl, heds, htds⟩ := Declaration.exists_allRegrouped ds
    exact ⟨d' :: ds', ⟨hnd, hnds⟩, congrArg (· + 1) hl,
      by simp only [Declaration.expressionsOf, hed, heds],
      fun f => by simp only [Declaration.mapExprs, Declaration.tokensOf, htd, htds]⟩

end

/-- **Whatever has a derivation has one with its `else`s near.** -/
theorem Declaration.exists_allNear (ds : List Declaration) :
    ∃ ds' : List Declaration, Declaration.tokensOf ds' = Declaration.tokensOf ds ∧
      Declaration.AllNear ds' ∧ (Declaration.AllProper ds → Declaration.AllProper ds') := by
  obtain ⟨ds', hnear, -, hexpressions, htokens⟩ := Declaration.exists_allRegrouped ds
  refine ⟨ds', by simpa only [Declaration.mapExprs_id] using htokens id, hnear, fun hproper => ?_⟩
  rw [← Declaration.faultsOf_eq_nil_iff, Declaration.faultsOf_eq_flatMap] at hproper ⊢
  rw [hexpressions, hproper]

end Grammar

end Lox
