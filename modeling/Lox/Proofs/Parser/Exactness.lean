import Lox.Proofs.Grammar.Dangling
import Lox.Proofs.Parser.Completeness
import Lox.Proofs.Parser.Soundness

/-!
# The parser and the grammar

A list of tokens is read without errors exactly when what stands before its first end of input is a
sentence, and then the statements that are read are the trees of its derivation.  Of the derivations
of a sentence it is one with its `else`s near, and all of those have the same trees.
-/

namespace Lox

open Grammar

namespace Parser

theorem exists_recovering_eq {α : Type} (p : Parser α) (ts : List Token) :
    ∃ a rest log, recovering p ts = ⟨.ok a, rest, log⟩ := by
  unfold recovering
  split
  · exact ⟨_, _, _, rfl⟩
  · exact ⟨_, _, _, rfl⟩

theorem exists_declarations_eq (stops : Kind → Bool) (expression : Parser Expr)
    (statement : Parser Stmt) (bound : Nat) (ts : List Token) :
    ∃ as rest log, declarations stops (declaration expression statement) bound ts =
      ⟨.ok as, rest, log⟩ := by
  induction bound generalizing ts with
  | zero => exact ⟨_, _, _, rfl⟩
  | succ bound ih =>
    cases ts with
    | nil => exact ⟨_, _, _, rfl⟩
    | cons t ts =>
      rw [declarations]
      split
      · exact ⟨_, _, _, rfl⟩
      · obtain ⟨first, rest₁, log₁, h₁⟩ : ∃ a rest log,
            declaration expression statement (t :: ts) = ⟨.ok a, rest, log⟩ :=
          exists_recovering_eq _ _
        obtain ⟨others, rest₂, log₂, h₂⟩ := ih rest₁
        refine ⟨first.toList ++ others, rest₂, log₁ ++ (log₂ ++ []), ?_⟩
        simp only [Bind.bind, Parser.bind, Pure.pure, Parser.pure, h₁, h₂]

end Parser

/-- What comes back from reading a program, in the words of the parser for declarations. -/
theorem exists_parse_eq (ts : List Token) : ∃ as rest log,
    Parser.program (Program.body ts) = ⟨.ok as, rest, log⟩ ∧ (parse ts).statements = as ∧
      ((parse ts).errors = [] ↔ log = []) := by
  obtain ⟨as, rest, log, h⟩ := Parser.exists_declarations_eq (fun _ => false)
    (Parser.expression (Program.body ts).length) (Parser.statement (Program.body ts).length)
    (Program.body ts).length (Program.body ts)
  have h : Parser.program (Program.body ts) = ⟨.ok as, rest, log⟩ := h
  refine ⟨as, rest, log, h, ?_, ?_⟩
  · simp only [parse, h]
    rfl
  · simp only [parse, h, List.map_eq_nil_iff]

theorem exists_derivation_of_parse {ts : List Token} (h : (parse ts).errors = []) :
    ∃ ds : List Declaration, Declaration.AllProper ds ∧ Declaration.AllNear ds ∧
      Declaration.tokensOf ds = Program.body ts ∧ (parse ts).statements = Declaration.trees ds := by
  obtain ⟨as, rest, log, hp, hstatements, herrors⟩ := exists_parse_eq ts
  obtain rfl := herrors.mp h
  obtain ⟨ds, htrees, htokens, hfaults, hnear⟩ := Parser.derivation_of_program hp Parser.clean_nil
  exact ⟨ds, (Declaration.faultsOf_eq_nil_iff ds).mp hfaults, hnear, htokens,
    hstatements.trans htrees.symm⟩

/-- A derivation with its `else`s near is read as its trees, with its faults as the errors. -/
theorem parse_of_near {ts : List Token} {ds : List Declaration} (hnear : Declaration.AllNear ds)
    (htokens : Declaration.tokensOf ds = Program.body ts) :
    parse ts = ⟨Declaration.trees ds,
      (Declaration.faultsOf ds).map (Failure.toError (Program.endToken ts))⟩ := by
  rw [parse, ← htokens, Parser.program_of_derivation ds hnear]
  rfl

theorem parse_of_derivation {ts : List Token} {ds : List Declaration}
    (hproper : Declaration.AllProper ds) (hnear : Declaration.AllNear ds)
    (htokens : Declaration.tokensOf ds = Program.body ts) :
    (parse ts).errors = [] ∧ (parse ts).statements = Declaration.trees ds := by
  rw [parse_of_near hnear htokens, (Declaration.faultsOf_eq_nil_iff ds).mpr hproper]
  exact ⟨rfl, rfl⟩

theorem body_eq_takeWhile (ts : List Token) :
    Program.body ts = ts.takeWhile fun t => t.kind ≠ .eof := by
  unfold Program.body
  congr 1
  funext t
  unfold Token.isEof
  split <;> simp_all

theorem body_append {ts : List Token} (h : ∀ t ∈ ts, t.kind ≠ .eof) (tail : List Token)
    (htail : ∀ t ∈ tail.head?, t.kind = .eof) : Program.body (ts ++ tail) = ts := by
  rw [body_eq_takeWhile, List.takeWhile_append_of_pos fun t ht => decide_eq_true (h t ht)]
  cases tail with
  | nil => exact List.append_nil ts
  | cons t tail =>
    rw [List.takeWhile_cons_of_neg (by simp [htail t rfl]), List.append_nil]

/-- **The parser accepts exactly the sentences of the grammar and builds their trees.**  There are
no errors exactly if the tokens before the first end of input are a sentence.  A sentence has a
proper derivation where every `else` belongs to the nearest `if` before it that has none, and the
statements read are, in order, the trees of that derivation, whichever it is. -/
theorem parse_exactly_grammar (ts : List Token) :
    ((parse ts).errors = [] ↔ Sentence (ts.takeWhile fun t => t.kind ≠ .eof)) ∧
      (Sentence (ts.takeWhile fun t => t.kind ≠ .eof) →
        ∃ ds : List Declaration, Declaration.AllProper ds ∧ Declaration.AllNear ds ∧
          Declaration.tokensOf ds = ts.takeWhile fun t => t.kind ≠ .eof) ∧
      ∀ ds : List Declaration, Declaration.AllProper ds → Declaration.AllNear ds →
        Declaration.tokensOf ds = (ts.takeWhile fun t => t.kind ≠ .eof) →
          (parse ts).statements = Declaration.trees ds := by
  rw [← body_eq_takeWhile]
  have hnear : Sentence (Program.body ts) → ∃ ds : List Declaration, Declaration.AllProper ds ∧
      Declaration.AllNear ds ∧ Declaration.tokensOf ds = Program.body ts := by
    rintro ⟨ds, hproper, htokens⟩
    obtain ⟨ds', htokens', hnear, hproper'⟩ := Declaration.exists_allNear ds
    exact ⟨ds', hproper' hproper, hnear, htokens'.trans htokens⟩
  refine ⟨⟨fun h => ?_, fun h => ?_⟩, hnear, fun ds hproper hnear htokens => ?_⟩
  · obtain ⟨ds, hproper, _, htokens, _⟩ := exists_derivation_of_parse h
    exact ⟨ds, hproper, htokens⟩
  · obtain ⟨ds, hproper, hnear, htokens⟩ := hnear h
    exact (parse_of_derivation hproper hnear htokens).1
  · exact (parse_of_derivation hproper hnear htokens).2

end Lox
