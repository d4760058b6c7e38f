import Lox.Proofs.Parser.Pace
import Mathlib.Logic.Function.Iterate

/-!
# Progress

Reading in place comes to an end.  Whatever the calls at depth `2 * n + 3` would reply, a program
with `n` tokens before the end of its input is read as `parse` reads it (`statementsPace_iterate`):
each nested call has a token less before it, except that a list of declarations calls for a
statement, and a statement for an expression, on the tokens that it has itself.

So the equations of reading in place have a solution and only one, which is the reader that cuts the
list at the end of its input (`expand_eq_iff`).  It goes forward with every declaration, never past
the end, and what it returns and what it reports have no more members than there are tokens.
-/

namespace Lox

namespace Parser

variable {α : Type} {v u : List Token}

namespace Reader

/-! ### The depth of the calls -/

theorem expressionsPace_zero (R : Reader) : R.ExpressionsPace v 0 :=
  ⟨fun _ _ _ _ hu => absurd hu (Nat.not_lt_zero _),
    fun _ _ _ _ _ _ _ _ _ hu => absurd hu (Nat.not_lt_zero _)⟩

theorem statementsPace_zero (R : Reader) : R.StatementsPace v 0 :=
  ⟨fun _ _ _ _ hu => absurd hu (Nat.not_lt_zero _),
    fun _ _ _ _ _ _ _ hu => absurd hu (Nat.not_lt_zero _)⟩

/-- The expressions of fewer than `k` tokens do not depend on the calls at depth `k`. -/
theorem expressionsPace_iterate (hv : Closing v) (start : Reader) {k m : Nat} (hm : k ≤ m) :
    (expand^[m] start).ExpressionsPace v k := by
  induction k generalizing m with
  | zero => exact expressionsPace_zero _
  | succ k ih =>
    obtain ⟨m, rfl⟩ := Nat.exists_eq_add_of_lt hm
    rw [Function.iterate_succ_apply']
    exact (ih (Nat.le_add_right k m)).expand hv

/-- **Reading ends at a depth of two calls for each token**, whatever deeper calls would reply. -/
theorem statementsPace_iterate (hv : Closing v) (start : Reader) {k m : Nat} (hm : 2 * k + 1 ≤ m) :
    (expand^[m] start).StatementsPace v k := by
  induction k generalizing m with
  | zero => exact statementsPace_zero _
  | succ k ih =>
    obtain ⟨m, rfl⟩ : ∃ n, m = n + 2 := ⟨m - 2, by omega⟩
    have hstatement : ∀ i, m ≤ i → ∀ b, k ≤ b →
        Paces v 1 (k + 1) (Parser.statement b) (expand^[i + 1] start).statement := by
      intro i hi b hb
      rw [Function.iterate_succ_apply']
      have hE : ∀ j ≤ k + 1, (expand^[i] start).ExpressionsPace v j :=
        fun j hj => expressionsPace_iterate hv start (by omega)
      exact paces_expand_statement hv hE (ih (by omega)) hb
    refine ⟨fun b hb => hstatement (m + 1) (Nat.le_succ m) b (Nat.le_of_succ_le_succ hb),
      fun stops b c hb hc u hin hu => ?_⟩
    have hc := Nat.le_of_succ_le_succ hc
    rw [Function.iterate_succ_apply']
    -- The statements that a list of declarations calls for are one call deeper, on the same tokens.
    exact tallies_expand_declarations hv stops (expressionsPace_iterate hv start (by omega))
      (ih (by omega)) (hstatement m (Nat.le_refl m) c hc) (Nat.le_of_succ_le_succ hb) hc hin hu

end Reader

/-! ### The solution -/

/-- What a parser replies to the tokens before the end of the input, with the end put back. -/
def cut (p : Nat → Parser α) : Parser α := fun ts =>
  (p (Program.body ts).length (Program.body ts)).ending (Program.tail ts)

theorem cut_append (p : Nat → Parser α) (hu : Inside u) (hv : Closing v) :
    cut p (u ++ v) = (p u.length u).ending v := by
  rw [cut, body_append hu v hv, tail_append hu hv]

namespace Reader

/-- The reader that cuts the list at the end of the input. -/
def cutting : Reader where
  expression := cut Parser.expression
  rounds l ls left := cut fun b =>
    operators l (ls.foldr (Parser.leveled b) (unary (Parser.expression b))) b left
  statement := cut Parser.statement
  declarations stops := cut fun b => Parser.declarations stops
    (Parser.declaration (Parser.expression b) (Parser.statement b)) b

/-- A reader is in step on all lists. -/
structure KeepsPace (R : Reader) : Prop where
  expressions : ∀ {v}, Closing v → ∀ k, R.ExpressionsPace v k
  statements : ∀ {v}, Closing v → ∀ k, R.StatementsPace v k

variable {R : Reader}

section

variable (hv : Closing v) (hu : Inside u)

include hv hu

theorem expression_append (h : R.ExpressionsPace v (u.length + 1)) :
    R.expression (u ++ v) = cutting.expression (u ++ v) :=
  (h.expression _ (Nat.le_refl _) u hu (Nat.lt_succ_self _)).same.trans
    (cut_append Parser.expression hu hv).symm

theorem rounds_append (h : R.ExpressionsPace v (u.length + 1)) (l : Level) (ls : List Level)
    (left : Expr) : R.rounds l ls left (u ++ v) = cutting.rounds l ls left (u ++ v) :=
  (h.rounds l ls left _ _ (Nat.le_refl _) (Nat.le_refl _) u hu (Nat.lt_succ_self _)).same.trans
    (cut_append (fun b => operators l
      (ls.foldr (Parser.leveled b) (unary (Parser.expression b))) b left) hu hv).symm

theorem statement_append (h : R.StatementsPace v (u.length + 1)) :
    R.statement (u ++ v) = cutting.statement (u ++ v) :=
  (h.statement _ (Nat.le_refl _) u hu (Nat.lt_succ_self _)).same.trans
    (cut_append Parser.statement hu hv).symm

theorem declarations_append (h : R.StatementsPace v (u.length + 1)) (stops : Kind → Bool) :
    R.declarations stops (u ++ v) = cutting.declarations stops (u ++ v) :=
  (h.declarations stops _ _ (Nat.le_refl _) (Nat.le_refl _) u hu
    (Nat.lt_succ_self _)).inStep.same.trans
    (cut_append (fun b => Parser.declarations stops
      (Parser.declaration (Parser.expression b) (Parser.statement b)) b) hu hv).symm

end

theorem keepsPace_of_expand_eq (hR : R.expand = R) : R.KeepsPace where
  expressions hv k := by
    have hstep := expressionsPace_iterate hv R (Nat.le_refl k)
    rwa [Function.iterate_fixed hR] at hstep
  statements hv k := by
    have hstep := statementsPace_iterate hv R (Nat.le_refl (2 * k + 1))
    rwa [Function.iterate_fixed hR] at hstep

theorem keepsPace_cutting : cutting.KeepsPace where
  expressions hv k := by
    have hE := fun j (hj : j ≤ k) => expressionsPace_iterate hv cutting hj
    refine ⟨fun b hb u hin hu => ?_, fun l ls left b c hb hc u hin hu => ?_⟩
    · rw [← expression_append hv hin (hE _ hu)]
      exact (hE k (Nat.le_refl k)).expression b hb u hin hu
    · rw [← rounds_append hv hin (hE _ hu)]
      exact (hE k (Nat.le_refl k)).rounds l ls left b c hb hc u hin hu
  statements hv k := by
    have hS := fun j (hj : j ≤ k) =>
      statementsPace_iterate hv cutting (Nat.succ_le_succ (Nat.mul_le_mul_left 2 hj))
    refine ⟨fun b hb u hin hu => ?_, fun stops b c hb hc u hin hu => ?_⟩
    · rw [← statement_append hv hin (hS _ hu)]
      exact (hS k (Nat.le_refl k)).statement b hb u hin hu
    · rw [← declarations_append hv hin (hS _ hu)]
      exact (hS k (Nat.le_refl k)).declarations stops b c hb hc u hin hu

theorem KeepsPace.expand (h : R.KeepsPace) : R.expand.KeepsPace where
  expressions hv k := by
    cases k with
    | zero => exact expressionsPace_zero _
    | succ k => exact (h.expressions hv k).expand hv
  statements hv k := by
    cases k with
    | zero => exact statementsPace_zero _
    | succ k =>
      refine ⟨fun b hb => ?_, fun stops b c hb hc u hin hu => ?_⟩
      · exact paces_expand_statement hv (fun j _ => h.expressions hv j) (h.statements hv k)
          (Nat.le_of_succ_le_succ hb)
      · exact tallies_expand_declarations hv stops (h.expressions hv _) (h.statements hv k)
          ((h.statements hv _).statement c hc) (Nat.le_of_succ_le_succ hb)
          (Nat.le_of_succ_le_succ hc) hin hu

theorem KeepsPace.eq_cutting (h : R.KeepsPace) : R = cutting := by
  have hparts : ∀ {α : Type} {p q : Parser α},
      (∀ u v, Inside u → Closing v → p (u ++ v) = q (u ++ v)) → p = q := by
    intro α p q h
    funext ts
    rw [← body_append_tail ts]
    exact h _ _ (inside_body ts) (closing_tail ts)
  apply Reader.ext
  · exact hparts fun u v hin hv => expression_append hv hin (h.expressions hv _)
  · funext l ls left
    exact hparts fun u v hin hv => rounds_append hv hin (h.expressions hv _) l ls left
  · exact hparts fun u v hin hv => statement_append hv hin (h.statements hv _)
  · funext stops
    exact hparts fun u v hin hv => declarations_append hv hin (h.statements hv _) stops

/-- **The equations of reading in place have exactly one solution.** -/
theorem expand_eq_iff : R.expand = R ↔ R = cutting := by
  constructor
  · intro hR
    exact (keepsPace_of_expand_eq hR).eq_cutting
  · rintro rfl
    exact keepsPace_cutting.expand.eq_cutting

end Reader

/-! ### Programs -/

/-- The token that a failure in place names is the one that the error names. -/
theorem toError_ending (ts : List Token) (f : Failure) :
    (f.ending (Program.tail ts)).toError ⟨.eof, "", 0⟩ = f.toError (Program.endToken ts) := by
  rw [Failure.toError, Failure.toError, Failure.ending, Program.endToken, head?_tail]
  cases f.found <;> rfl

namespace Reader

variable {R : Reader}

/-- A program that is read in step is the one that `parse` reads, and everything in it has a token
of its own. -/
theorem StatementsPace.program {ts : List Token}
    (h : R.StatementsPace (Program.tail ts) ((Program.body ts).length + 1)) :
    R.program ts = parse ts ∧
      (parse ts).statements.length + (parse ts).errors.length ≤ (Program.body ts).length := by
  have htallies := h.declarations (fun _ => false) _ _ (Nat.le_refl _) (Nat.le_refl _)
    (Program.body ts) (inside_body ts) (Nat.lt_succ_self _)
  rw [body_append_tail] at htallies
  obtain ⟨as, rest, log, hcut, hplace, -, hcount⟩ := htallies
  have hparse : parse ts = ⟨as, log.map (Failure.toError (Program.endToken ts))⟩ := by
    rw [parse, Parser.program, hcut]
    rfl
  rw [hparse]
  constructor
  · rw [Reader.program, hplace]
    simp only [List.map_map, Function.comp_def, toError_ending]
    rfl
  · dsimp only
    rw [List.length_map]
    omega

theorem program_cutting (ts : List Token) : cutting.program ts = parse ts :=
  (keepsPace_cutting.statements (closing_tail ts) _).program.1

/-- A declaration before the end of the input goes forward, and not past the end. -/
theorem KeepsPace.declaration_rest (h : R.KeepsPace) (ts : List Token) {p : Nat}
    (hp : p < (Program.body ts).length) :
    ∃ q, p < q ∧ q ≤ (Program.body ts).length ∧ (R.declaration (ts.drop p)).rest = ts.drop q := by
  have hdrop : ∀ q ≤ (Program.body ts).length,
      ts.drop q = (Program.body ts).drop q ++ Program.tail ts := by
    intro q hq
    rw [← List.drop_append_of_le_length hq, body_append_tail]
  have hv := closing_tail ts
  have hin := (inside_body ts).of_suffix (List.drop_suffix p _)
  have hne : (Program.body ts).drop p ≠ [] := by
    rw [ne_eq, List.drop_eq_nil_iff]
    omega
  obtain ⟨⟨_, rest, _, hcut, hplace, hsuffix, -⟩, hlt⟩ := tallies_declaration hv
    (h.expressions hv _) (Nat.le_refl _) ((h.statements hv _).statement _ (Nat.le_refl _)) hne hin
    (Nat.lt_succ_self _)
  rw [hcut, List.length_drop] at hlt
  have hrest := List.suffix_iff_eq_drop.mp (hsuffix.trans (List.drop_suffix p _))
  refine ⟨(Program.body ts).length - rest.length, ?_, Nat.sub_le _ _, ?_⟩
  · dsimp only at hlt
    omega
  · rw [hdrop p hp.le, hplace, hdrop _ (Nat.sub_le _ _), ← hrest]

end Reader

/-- **Parsing always ends and goes forward, and what it reports is bounded.**  Let `n` be the number
of tokens before the first end of input.  There is exactly one reader in place, and it reads what
`parse` reads; so does every expansion of a depth of `2 * n + 3` calls, whatever the calls at its
bottom reply.  Each declaration that is started at one of the `n` tokens, whether it is read or
given up, ends at a later position and no later than the end of the input.  Statements and errors
together are at most `n`. -/
theorem parse_makes_progress : ∃ R : Reader, (∀ R' : Reader, R'.expand = R' ↔ R' = R) ∧
    ∀ ts : List Token,
      let n := (ts.takeWhile fun t => t.kind ≠ .eof).length
      R.program ts = parse ts ∧
      (∀ (start : Reader) (depth : Nat), 2 * n + 3 ≤ depth →
        (Reader.expand^[depth] start).program ts = parse ts) ∧
      (∀ p < n, ∃ q, p < q ∧ q ≤ n ∧ (R.declaration (ts.drop p)).rest = ts.drop q) ∧
      (parse ts).statements.length + (parse ts).errors.length ≤ n := by
  refine ⟨Reader.cutting, fun R' => Reader.expand_eq_iff, fun ts => ?_⟩
  dsimp only
  rw [← body_eq_takeWhile]
  refine ⟨Reader.program_cutting ts, fun start depth hdepth => ?_, fun p hp => ?_, ?_⟩
  · exact (Reader.statementsPace_iterate (closing_tail ts) start hdepth).program.1
  · exact Reader.keepsPace_cutting.declaration_rest ts hp
  · exact (Reader.keepsPace_cutting.statements (closing_tail ts) _).program.2

/-- The bound is met: each of the braces that are still open at the end is reported. -/
example :
    let brace : Token := ⟨.symbol .leftBrace, "\x7b", 1⟩
    (parse [brace, brace, brace]).errors.length = 3 := by
  decide

end Parser

end Lox
