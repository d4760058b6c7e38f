import Lox.Proofs.Parser.Exactness
import Lox.Proofs.Parser.Naturality

/-!
# Programs one after the other

Two lists of tokens that are read without errors are read without errors one after the other, as the
statements of the first and then those of the second: the second can not begin with an `else`.
-/

namespace Lox

namespace Grammar.Declaration

@[simp]
theorem tokensOf_append (ds es : List Declaration) :
    tokensOf (ds ++ es) = tokensOf ds ++ tokensOf es := by
  induction ds with
  | nil => rfl
  | cons d ds ih => rw [List.cons_append, tokensOf, ih, tokensOf, List.append_assoc]

@[simp]
theorem trees_append (ds es : List Declaration) : trees (ds ++ es) = trees ds ++ trees es := by
  induction ds with
  | nil => rfl
  | cons d ds ih => rw [List.cons_append, trees, ih, trees, List.cons_append]

@[simp]
theorem faultsOf_append (ds es : List Declaration) :
    faultsOf (ds ++ es) = faultsOf ds ++ faultsOf es := by
  induction ds with
  | nil => rfl
  | cons d ds ih => rw [List.cons_append, faultsOf, ih, faultsOf, List.append_assoc]

theorem AllNear.append {ds es : List Declaration} (hds : AllNear ds) (hes : AllNear es) :
    AllNear (ds ++ es) := by
  induction ds with
  | nil => exact hes
  | cons d ds ih => exact ⟨hds.1, ih hds.2⟩

end Grammar.Declaration

open Grammar

namespace Parser

/-- **Programs that are read without starting again are read so one after the other.** -/
theorem program_append {us vs rest rest' : List Token} {as bs : List Stmt} {log log' : List Failure}
    (hu : program us = ⟨.ok as, rest, log⟩) (hv : program vs = ⟨.ok bs, rest', log'⟩)
    (hlog : Clean log) (hlog' : Clean log') :
    program (us ++ vs) = ⟨.ok (as ++ bs), [], log ++ log'⟩ := by
  obtain ⟨ds, rfl, rfl, rfl, hds⟩ := derivation_of_program hu hlog
  obtain ⟨es, rfl, rfl, rfl, hes⟩ := derivation_of_program hv hlog'
  rw [← Declaration.tokensOf_append, program_of_derivation (ds ++ es) (hds.append hes),
    Declaration.trees_append, Declaration.faultsOf_append]

end Parser

/-- **A program and a relabelled program after it.** -/
theorem parse_join {f : Token → Token} (hf : ∀ t, (f t).kind = t.kind) {ts tsA tsB : List Token}
    (hbody : Program.body ts = Program.body tsA ++ (Program.body tsB).map f)
    (hA : (parse tsA).errors = []) (hB : (parse tsB).errors = []) :
    (parse ts).errors = [] ∧
      (parse ts).statements =
        (parse tsA).statements ++ Stmt.relabelEach f (parse tsB).statements := by
  obtain ⟨as, rest, log, hpA, hstatementsA, herrorsA⟩ := exists_parse_eq tsA
  obtain ⟨bs, rest', log', hpB, hstatementsB, herrorsB⟩ := exists_parse_eq tsB
  obtain ⟨cs, rest'', log'', hp, hstatements, herrors⟩ := exists_parse_eq ts
  obtain rfl := herrorsA.mp hA
  obtain rfl := herrorsB.mp hB
  have hnatural := Parser.natural_program hf (Program.body tsB)
  rw [hpB] at hnatural
  have hjoined := Parser.program_append hpA hnatural Parser.clean_nil Parser.clean_nil
  rw [← hbody, hp] at hjoined
  cases hjoined
  exact ⟨herrors.mpr rfl, by rw [hstatements, hstatementsA, hstatementsB]⟩

end Lox
