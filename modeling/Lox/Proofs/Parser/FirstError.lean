import Lox.Proofs.Grammar.Dangling
import Lox.Proofs.Parser.Completeness
import Lox.Proofs.Parser.Exactness
import Lox.Proofs.Parser.Prediction

/-!
# The first error is at the first impossible token

A list of tokens is read up to the longest beginning that it has in common with a relaxed sentence,
and the first error that makes the reader start again is at the token after it
(`first_error_at_first_impossible_token`).  An assignment to something that is no target is an error
too, but the reader goes on from it, and relaxed sentences have such assignments.

Two facts are put together.  A relaxed sentence is read to its end: the reader finds the derivation
of its tokens whose `else`s are near, and the faults of a derivation are invalid targets and nothing
else (`stuck?_program_of_sentence`).  And the parsers predict: the tokens before the place where the
reader is stuck are the beginning of a relaxed sentence, so this place is not after the longest such
beginning.  Nor is it before: the reader would be stuck at the same token in the sentence that
completes the longest beginning, which it reads to its end (`exists_impossible_of_stuck`).

The reader's bound is the number of its tokens, and the two lists that are compared are of different
lengths.  `programWithin` reads both of them with one bound that is large enough for either.
-/

namespace Lox

open Grammar

namespace Grammar

/-! ### Relaxed sentences are read to their end -/

open Lox.Parser (Clean clean_nil clean_append)

theorem Expression.clean_faults {r : Rank} (e : Expression r) : Clean e.faults := by
  induction e with
  | plain e ih => exact ih
  | assign left equals value ihl ihv =>
    refine clean_append.mpr ⟨ihl, clean_append.mpr ⟨ihv, ?_⟩⟩
    cases left.name? with
    | some t => exact clean_nil
    | none => exact List.forall_mem_singleton.mpr rfl
  | operand e ih => exact ih
  | operation left op right ihl ihr => exact clean_append.mpr ⟨ihl, ihr⟩
  | primary e ih => exact ih
  | unary op right ih => exact ih
  | literal t v h => exact clean_nil
  | name t => exact clean_nil
  | grouping lparen inner rparen ih => exact ih

theorem clean_optionalFaults (o : Option (Expression .assignment)) : Clean (optionalFaults o) := by
  cases o with
  | none => exact clean_nil
  | some e => exact e.clean_faults

theorem Initial.clean_faults (i : Initial) : Clean i.faults := by
  cases i with
  | none semicolon => exact clean_nil
  | declare v => exact clean_optionalFaults _
  | expr e semicolon => exact e.clean_faults

theorem Header.clean_faults (h : Header) : Clean h.faults :=
  clean_append.mpr ⟨h.initial.clean_faults,
    clean_append.mpr ⟨clean_optionalFaults _, clean_optionalFaults _⟩⟩

mutual

theorem Statement.clean_faults (s : Statement) : Clean s.faults := by
  cases s with
  | expr e semicolon =>
    rw [Statement.faults]
    exact e.clean_faults
  | print printKw e semicolon =>
    rw [Statement.faults]
    exact e.clean_faults
  | block lbrace body rbrace =>
    rw [Statement.faults]
    exact Declaration.clean_faultsOf body
  | ifThen ifKw c yes =>
    rw [Statement.faults]
    exact clean_append.mpr ⟨c.expr.clean_faults, yes.clean_faults⟩
  | ifElse ifKw c yes elseKw no =>
    rw [Statement.faults]
    exact clean_append.mpr ⟨c.expr.clean_faults,
      clean_append.mpr ⟨yes.clean_faults, no.clean_faults⟩⟩
  | whileLoop whileKw c body =>
    rw [Statement.faults]
    exact clean_append.mpr ⟨c.expr.clean_faults, body.clean_faults⟩
  | forLoop forKw header body =>
    rw [Statement.faults]
    exact clean_append.mpr ⟨header.clean_faults, body.clean_faults⟩

theorem Declaration.clean_faults (d : Declaration) : Clean d.faults := by
  cases d with
  | declare v =>
    rw [Declaration.faults]
    exact clean_optionalFaults _
  | statement s =>
    rw [Declaration.faults]
    exact s.clean_faults

/-- **The faults of a derivation are invalid targets,** which are no reason to start again. -/
theorem Declaration.clean_faultsOf (ds : List Declaration) : Clean (Declaration.faultsOf ds) := by
  cases ds with
  | nil =>
    rw [Declaration.faultsOf]
    exact clean_nil
  | cons d ds =>
    rw [Declaration.faultsOf]
    exact clean_append.mpr ⟨d.clean_faults, Declaration.clean_faultsOf ds⟩

end

end Grammar

namespace Parser

/-- **On a relaxed sentence the reader is never stuck.** -/
theorem stuck?_program_of_sentence {ts : List Token} (h : RelaxedSentence ts) :
    (program ts).stuck? = none := by
  obtain ⟨ds, rfl⟩ := h
  obtain ⟨ds', htokens, hnear, -⟩ := Declaration.exists_allNear ds
  rw [← htokens, program_of_derivation ds' hnear]
  exact stuck?_ok_of_clean (Declaration.clean_faultsOf ds')

/-! ### The longest beginning of a relaxed sentence -/

/-- A program, with a bound that does not depend on the number of tokens. -/
def programWithin (bound : Nat) : Parser (List Stmt) :=
  declarations (fun _ => false) (declaration (expression bound) (statement bound)) bound

theorem predicts_programWithin (bound : Nat) : Predicts Phrase.program (programWithin bound) :=
  predicts_declarations _
    (predicts_declaration (predicts_expression bound) (predicts_statement bound)) bound

theorem programWithin_eq {ts : List Token} {bound : Nat} (h : ts.length ≤ bound) :
    programWithin bound ts = program ts := by
  have hE : Agrees Any 1 ts.length (expression ts.length) (expression bound) :=
    (agrees_expression (Nat.le_refl _) h).mono (Nat.le_refl 1) (Nat.le_refl _) fun _ _ => trivial
  have hS : Agrees Any 1 ts.length (statement ts.length) (statement bound) :=
    agrees_statement (Nat.le_refl _) h
  have hagrees := agrees_declarations (fun _ => false) (local_declaration hE hS) (Nat.le_refl _)
    (Nat.le_refl _) h ts (Nat.le_refl _)
  have hsame := hagrees.same [] (.inl rfl)
  rw [List.append_nil, Reply.before, List.append_nil] at hsame
  exact hsame

theorem exists_take_append {used tail : List Token} {k : Nat} (hlt : used.length < k)
    (hle : k ≤ (used ++ tail).length) (c : List Token) :
    ∃ tail', (used ++ tail).take k ++ c = used ++ tail' ∧ tail'.head? = tail.head? := by
  obtain ⟨n, rfl⟩ : ∃ n, k = used.length + (n + 1) := ⟨k - used.length - 1, by omega⟩
  cases tail with
  | nil =>
    rw [List.append_nil] at hle
    omega
  | cons t tail =>
    refine ⟨t :: (tail.take n ++ c), ?_, rfl⟩
    rw [List.take_length_add_append, List.take_succ_cons, List.append_assoc, List.cons_append]

/-- **The reader is stuck after the longest beginning of a relaxed sentence.** -/
theorem exists_impossible_of_stuck {w : List Token} {f : Failure}
    (h : (program w).stuck? = some f) :
    ∃ k ≤ w.length, f.found = w[k]? ∧ (∃ more, RelaxedSentence (w.take k ++ more)) ∧
      (k < w.length → ∀ more, ¬ RelaxedSentence (w.take (k + 1) ++ more)) ∧
      ¬ RelaxedSentence w := by
  classical
  let Viable (j : Nat) : Prop := ∃ more, RelaxedSentence (w.take j ++ more)
  let k := Nat.findGreatest Viable w.length
  have hviable : Viable k := Nat.findGreatest_spec (Nat.zero_le _) ⟨[], [], rfl⟩
  have hmax : ∀ j ≤ w.length, Viable j → j ≤ k := fun j hj hv => Nat.le_findGreatest hj hv
  have hle : k ≤ w.length := Nat.findGreatest_le _
  refine ⟨k, hle, ?_, hviable, fun hlt more hmore => ?_, fun hw => ?_⟩
  · obtain ⟨c, hc⟩ := hviable
    -- A bound that allows for the whole sentence.
    let bound := max w.length (w.take k ++ c).length
    have hstuck : (programWithin bound w).stuck? = some f := by
      rw [programWithin_eq (Nat.le_max_left _ _), h]
    have hsentence : (programWithin bound (w.take k ++ c)).stuck? = none := by
      rw [programWithin_eq (Nat.le_max_right _ _), stuck?_program_of_sentence hc]
    obtain ⟨-, used, tail, hw, hfound, ⟨more, hmore⟩, hsame⟩ :=
      ((predicts_programWithin bound).everywhere w).stuck hstuck
    have hused : w.take used.length = used := by rw [hw, List.take_left]
    have hlength : used.length ≤ w.length := by rw [hw, List.length_append]; omega
    have hshort : used.length ≤ k := hmax _ hlength ⟨more, by rw [hused]; exact hmore⟩
    have hlong : ¬ used.length < k := by
      intro hlt
      obtain ⟨tail', hsplit, hhead⟩ := exists_take_append hlt (hw ▸ hle) c
      rw [← hw] at hsplit
      exact hsame tail' hhead (hsplit ▸ hsentence)
    have hk : used.length = k := by omega
    rw [hfound, ← hk, hw, List.getElem?_append_right (Nat.le_refl _), Nat.sub_self,
      List.head?_eq_getElem?]
  · have := hmax (k + 1) hlt ⟨more, hmore⟩
    omega
  · rw [stuck?_program_of_sentence hw] at h
    cases h

end Parser

/-! ### Programs -/

/-- Whether the reader gave up a statement at the error and started again.  After an invalid target
it goes on. -/
def GrammarError.unwinds (e : GrammarError) : Bool := e.fault ≠ .assignmentTarget

theorem find?_errors_eq (ts : List Token) :
    (parse ts).errors.find? GrammarError.unwinds =
      (Parser.program (Program.body ts)).stuck?.map (Failure.toError (Program.endToken ts)) := by
  obtain ⟨as, rest, log, h, -, -⟩ := exists_parse_eq ts
  rw [h, Parser.stuck?_ok]
  simp only [parse, h]
  exact List.find?_map ..

/-- **The first error that makes the reader start again is at the first impossible token.**  The
tokens before it are the beginning of a relaxed sentence, and with it they are not, so there is only
one such place; if it is the end of the input, the input is no relaxed sentence.  On a relaxed
sentence the reader never starts again. -/
theorem first_error_at_first_impossible_token (ts : List Token) :
    let w := ts.takeWhile fun t => t.kind ≠ .eof
    (∀ e, (parse ts).errors.find? GrammarError.unwinds = some e →
      ∃ k ≤ w.length, e.found = w[k]?.getD (Program.endToken ts) ∧
        (∃ more, RelaxedSentence (w.take k ++ more)) ∧
        (k < w.length → ∀ more, ¬ RelaxedSentence (w.take (k + 1) ++ more)) ∧
        (k = w.length → ¬ RelaxedSentence w)) ∧
    (RelaxedSentence w → ∀ e ∈ (parse ts).errors, ¬ e.unwinds) := by
  intro w
  have hw : w = Program.body ts := (body_eq_takeWhile ts).symm
  refine ⟨fun e he => ?_, fun hsentence => ?_⟩
  · rw [find?_errors_eq, ← hw, Option.map_eq_some_iff] at he
    obtain ⟨f, hf, rfl⟩ := he
    obtain ⟨k, hle, hfound, hviable, himpossible, hnot⟩ := Parser.exists_impossible_of_stuck hf
    exact ⟨k, hle, congrArg (Option.getD · _) hfound, hviable, himpossible, fun _ => hnot⟩
  · have hnone : (parse ts).errors.find? GrammarError.unwinds = none := by
      rw [find?_errors_eq, ← hw, Parser.stuck?_program_of_sentence hsentence, Option.map_none]
    exact List.find?_eq_none.mp hnone

/-- In `nil = nil ; print ; nil ;` the reader goes on after the invalid target and starts again at
the second semicolon.  In `nil = nil ;` it does not start again. -/
theorem first_error_at_first_impossible_token_after_invalid_target :
    let token (k : Kind) (line : Int32) : Token := ⟨k, "", line⟩
    let ts : List Token := [token (.keyword .nilKw) 1, token (.symbol .equal) 1,
      token (.keyword .nilKw) 1, token (.symbol .semicolon) 1, token (.keyword .printKw) 2,
      token (.symbol .semicolon) 2, token (.keyword .nilKw) 3, token (.symbol .semicolon) 3]
    ((parse ts).errors = [⟨.assignmentTarget, token (.symbol .equal) 1⟩,
        ⟨.expression, token (.symbol .semicolon) 2⟩] ∧
      (∃ more, RelaxedSentence (ts.take 5 ++ more)) ∧
      ∀ more, ¬ RelaxedSentence (ts.take 6 ++ more)) ∧
    (parse (ts.take 4)).errors = [⟨.assignmentTarget, token (.symbol .equal) 1⟩] ∧
      ∀ e ∈ (parse (ts.take 4)).errors, ¬ e.unwinds := by
  intro token ts
  refine ⟨?_, rfl, ?_⟩
  · have herrors : (parse ts).errors = [⟨.assignmentTarget, token (.symbol .equal) 1⟩,
        ⟨.expression, token (.symbol .semicolon) 2⟩] := rfl
    obtain ⟨k, hle, hfound, hviable, himpossible, -⟩ :=
      (first_error_at_first_impossible_token ts).1 ⟨.expression, token (.symbol .semicolon) 2⟩
        (by rw [herrors]; rfl)
    -- Only one of the tokens is a semicolon on the second line.
    have honly : ∀ j ≤ 8,
        token (.symbol .semicolon) 2 = ts[j]?.getD (Program.endToken ts) → j = 5 := by
      decide
    obtain rfl : k = 5 := honly k hle hfound
    exact ⟨herrors, hviable, himpossible (by decide)⟩
  · let nothing : Expression (.level .or) := .operand (.operand (.operand (.operand (.operand
      (.operand (.primary (.literal (token (.keyword .nilKw) 1) .nil .nilKw)))))))
    have hsentence : RelaxedSentence (ts.take 4) :=
      ⟨[.statement (.expr (.assign nothing ⟨token (.symbol .equal) 1, rfl⟩ (.plain nothing))
        ⟨token (.symbol .semicolon) 1, rfl⟩)], rfl⟩
    exact (first_error_at_first_impossible_token (ts.take 4)).2 hsentence

end Lox
