import Lox.Proofs.Parser.Exactness

/-!
# Invalid targets

An `=` with something other than a name to its left is an error, but the reader is not confused by
it: it reads the right side too, drops it, and goes on with the left side.

So a program with such mistakes and no others is read as the program where each of these `=`s is
deleted together with its right side (`Expression.erase`), and the errors are the mistakes: one for
each of them, also where the right side that it stands in is dropped (`Expression.assignments`).
The proof is in two parts.  On derivations, erasing keeps the trees and leaves no faults.  And the
list of tokens that is left is derived by the erased derivation, so it is read as its trees.

The derivation of the tokens may be any, though the reader finds one with its `else`s near: bringing
the `else`s near touches no expression, so it commutes with erasing.
-/

namespace Lox

namespace Grammar

/-! ### Assignments in an expression -/

/-- An `=` with its two sides. -/
structure Assignment where
  target : Expression (.level .or)
  equals : Terminal (.symbol .equal)
  value : Expression .assignment

/-- Something other than a bare name is assigned to. -/
def Assignment.invalid (a : Assignment) : Bool := a.target.name?.isNone

namespace Expression

/-- The assignments in an expression, each of them after those in its two sides. -/
def assignments : {r : Rank} → Expression r → List Assignment
  | _, plain e => e.assignments
  | _, assign left equals value =>
    left.assignments ++ (value.assignments ++ [⟨left, equals, value⟩])
  | _, operand e => e.assignments
  | _, operation left _ right => left.assignments ++ right.assignments
  | _, primary e => e.assignments
  | _, unary _ right => right.assignments
  | _, literal _ _ _ => []
  | _, name _ => []
  | _, grouping _ inner _ => inner.assignments

/-- The expression without the `=`s of invalid assignments and without their right sides.  A name
that is assigned to holds nothing to delete. -/
def erase : {r : Rank} → Expression r → Expression r
  | _, plain e => plain e.erase
  | _, assign left equals value =>
    match left.name? with
    | some _ => assign left equals value.erase
    | none => plain left.erase
  | _, operand e => operand e.erase
  | _, operation left op right => operation left.erase op right.erase
  | _, primary e => primary e.erase
  | _, unary op right => unary op right.erase
  | _, literal t v h => literal t v h
  | _, name t => name t
  | _, grouping lparen inner rparen => grouping lparen inner.erase rparen

variable {r : Rank}

/-- The faults of an expression are its invalid assignments. -/
theorem faults_eq_map (e : Expression r) :
    e.faults = (e.assignments.filter Assignment.invalid).map
      fun a => ⟨.assignmentTarget, some a.equals.1⟩ := by
  induction e with
  | plain e ih => exact ih
  | assign left equals value ihl ihv =>
    rw [faults, assignments, List.filter_append, List.filter_append, List.map_append,
      List.map_append, ihl, ihv, List.filter_cons, Assignment.invalid]
    cases left.name? <;> rfl
  | operand e ih => exact ih
  | operation left op right ihl ihr =>
    rw [faults, assignments, List.filter_append, List.map_append, ihl, ihr]
  | primary e ih => exact ih
  | unary op right ih => exact ih
  | literal t v h => rfl
  | name t => rfl
  | grouping lparen inner rparen ih => exact ih

/-! ### What is left of it -/

@[simp]
theorem tree_erase (e : Expression r) : e.erase.tree = e.tree := by
  induction e with
  | plain e ih => exact ih
  | assign left equals value ihl ihv =>
    rw [erase, tree]
    cases hname : left.name? with
    | none => exact ihl
    | some t => simp only [tree, hname, ihv]
  | operand e ih => exact ih
  | operation left op right ihl ihr => rw [erase, tree_operation, tree_operation, ihl, ihr]
  | primary e ih => exact ih
  | unary op right ih => rw [erase, tree, tree, ih]
  | literal t v h => rfl
  | name t => rfl
  | grouping lparen inner rparen ih => rw [erase, tree, tree, ih]

@[simp]
theorem faults_erase (e : Expression r) : e.erase.faults = [] := by
  induction e with
  | plain e ih => exact ih
  | assign left equals value ihl ihv =>
    rw [erase]
    cases hname : left.name? with
    | none => exact ihl
    -- A name stays to the left, so this `=` is no fault; what it assigns is erased.
    | some t => simp only [faults, hname, left.faults_of_name? hname, ihv, List.append_nil]
  | operand e ih => exact ih
  | operation left op right ihl ihr => rw [erase, faults, ihl, ihr, List.append_nil]
  | primary e ih => exact ih
  | unary op right ih => exact ih
  | literal t v h => rfl
  | name t => rfl
  | grouping lparen inner rparen ih => exact ih

theorem tokens_erase_sublist (e : Expression r) : e.erase.tokens.Sublist e.tokens := by
  induction e with
  | plain e ih => exact ih
  | assign left equals value ihl ihv =>
    rw [erase]
    cases left.name? with
    | none => exact ihl.trans (List.sublist_append_left ..)
    | some t => exact (ihv.cons_cons _).append_left _
  | operand e ih => exact ih
  | operation left op right ihl ihr => exact ihl.append (ihr.cons_cons _)
  | primary e ih => exact ih
  | unary op right ih => exact ih.cons_cons _
  | literal t v h => exact .refl _
  | name t => exact .refl _
  | grouping lparen inner rparen ih => exact (ih.append_right _).cons_cons _

end Expression

/-! ### The same in declarations -/

namespace Declaration

/-- The assignments in declarations, each of them after those in its two sides. -/
def assignmentsOf (ds : List Declaration) : List Assignment :=
  (expressionsOf ds).flatMap Expression.assignments

/-- The declarations without the `=`s of invalid assignments and without their right sides. -/
def eraseAll (ds : List Declaration) : List Declaration := mapExprs Expression.erase ds

theorem faultsOf_eq_map (ds : List Declaration) :
    faultsOf ds = ((assignmentsOf ds).filter Assignment.invalid).map
      fun a => ⟨.assignmentTarget, some a.equals.1⟩ := by
  rw [faultsOf_eq_flatMap, assignmentsOf, List.filter_flatMap, List.map_flatMap]
  exact congrArg (List.flatMap · _) (funext Expression.faults_eq_map)

@[simp]
theorem trees_eraseAll (ds : List Declaration) : trees (eraseAll ds) = trees ds :=
  trees_mapExprs Expression.tree_erase ds

@[simp]
theorem faultsOf_eraseAll (ds : List Declaration) : faultsOf (eraseAll ds) = [] := by
  rw [faultsOf_eq_flatMap, eraseAll, expressionsOf_mapExprs, List.flatMap_map,
    List.flatMap_eq_nil_iff]
  exact fun e _ => e.faults_erase

theorem tokensOf_eraseAll_sublist (ds : List Declaration) :
    (tokensOf (eraseAll ds)).Sublist (tokensOf ds) :=
  tokensOf_mapExprs_sublist Expression.tokens_erase_sublist ds

theorem length_trees (ds : List Declaration) : (trees ds).length = ds.length := by
  induction ds with
  | nil => rfl
  | cons d ds ih => rw [trees, List.length_cons, List.length_cons, ih]

end Declaration

end Grammar

open Grammar

/-- Some of the tokens before the end of input, followed by the rest from there on. -/
theorem body_append_dropWhile {us ts : List Token}
    (h : us.Sublist (ts.takeWhile fun t => t.kind ≠ .eof)) :
    Program.body (us ++ ts.dropWhile fun t => t.kind ≠ .eof) = us := by
  refine body_append (fun t ht => ?_) _ fun t ht => ?_
  · simpa using List.all_eq_true.mp List.all_takeWhile t (h.subset ht)
  · have hfirst := List.head?_dropWhile_not (fun t : Token => decide (t.kind ≠ .eof)) ts
    rw [Option.mem_def.mp ht] at hfirst
    simpa using hfirst

/-- **An invalid target costs no statement.**  Let the tokens before the first end of input have a
derivation, whatever stands to the left of its `=`s.  The errors are its invalid assignments, each
at its `=` and after those in its two sides, and there are no others.  The statements are what is
read, without errors, when each of these `=`s is deleted with its right side. -/
theorem invalid_target_costs_no_statement (ts : List Token) (ds : List Declaration)
    (hds : Declaration.tokensOf ds = ts.takeWhile fun t => t.kind ≠ .eof) :
    let erased := Declaration.tokensOf (Declaration.eraseAll ds) ++
      ts.dropWhile fun t => t.kind ≠ .eof
    (parse ts).errors = ((Declaration.assignmentsOf ds).filter Assignment.invalid).map
        (fun a => ⟨.assignmentTarget, a.equals.1⟩) ∧
      erased.Sublist ts ∧ parse erased = ⟨(parse ts).statements, []⟩ ∧
      (parse ts).statements.length = ds.length := by
  intro erased
  -- The reader finds the derivation with its `else`s near, and both are erased alike.
  obtain ⟨ds', hnear, hlength, hexpressions, htokens⟩ := Declaration.exists_allRegrouped ds
  have hparse : parse ts = ⟨Declaration.trees ds',
      (Declaration.faultsOf ds').map (Failure.toError (Program.endToken ts))⟩ := by
    refine parse_of_near hnear ?_
    rw [body_eq_takeWhile, ← hds]
    simpa only [Declaration.mapExprs_id] using htokens id
  have hsublist : (Declaration.tokensOf (Declaration.eraseAll ds)).Sublist
      (ts.takeWhile fun t => t.kind ≠ .eof) := hds ▸ Declaration.tokensOf_eraseAll_sublist ds
  have hbody : Declaration.tokensOf (Declaration.eraseAll ds') = Program.body erased := by
    rw [body_append_dropWhile hsublist]
    exact htokens Expression.erase
  have herased : parse erased = ⟨Declaration.trees ds', []⟩ := by
    have hnear' : Declaration.AllNear (Declaration.eraseAll ds') :=
      Declaration.allNear_mapExprs hnear
    rw [parse_of_near hnear' hbody, Declaration.trees_eraseAll, Declaration.faultsOf_eraseAll,
      List.map_nil]
  refine ⟨?_, ?_, ?_, ?_⟩
  · rw [hparse, Declaration.faultsOf_eq_map, List.map_map, Declaration.assignmentsOf, hexpressions]
    rfl
  · have := hsublist.append_right (ts.dropWhile fun t => t.kind ≠ .eof)
    rwa [List.takeWhile_append_dropWhile] at this
  · rw [herased, hparse]
  · rw [hparse, Declaration.length_trees, hlength]

/-- In `a = nil = b = nil ; ( c = nil ) = nil = nil ;` three `=`s have no name to their left, one of
them in a right side that is dropped.  What is read is `a = nil ; ( c = nil ) ;`. -/
theorem invalid_target_costs_no_statement_chain :
    let ident (name : String) : Token := ⟨.identifier name, name, 1⟩
    let equals (line : Int32) : Token := ⟨.symbol .equal, "=", line⟩
    let null : Token := ⟨.keyword .nilKw, "nil", 1⟩
    let lparen : Token := ⟨.symbol .leftParen, "(", 1⟩
    let rparen : Token := ⟨.symbol .rightParen, ")", 1⟩
    let semicolon : Token := ⟨.symbol .semicolon, ";", 1⟩
    let eof : Token := ⟨.eof, "", 1⟩
    let ts := [ident "a", equals 1, null, equals 2, ident "b", equals 3, null, semicolon,
      lparen, ident "c", equals 4, null, rparen, equals 5, null, equals 6, null, semicolon, eof]
    (parse ts).errors = [⟨.assignmentTarget, equals 2⟩, ⟨.assignmentTarget, equals 6⟩,
        ⟨.assignmentTarget, equals 5⟩] ∧
      parse [ident "a", equals 1, null, semicolon, lparen, ident "c", equals 4, null, rparen,
        semicolon, eof] = ⟨(parse ts).statements, []⟩ ∧
      (parse ts).statements.length = 2 := by
  intro ident equals null lparen rparen semicolon eof ts
  let operand (e : Expression .primary) : Expression (.level .or) :=
    .operand (.operand (.operand (.operand (.operand (.operand (.primary e))))))
  let named (name : String) := operand (.name ⟨ident name, name, rfl⟩)
  let nothing := operand (.literal null .nil .nilKw)
  let assign (left : Expression (.level .or)) (line : Int32) (value : Expression .assignment) :
      Expression .assignment := .assign left ⟨equals line, rfl⟩ value
  let statement (e : Expression .assignment) : Declaration :=
    .statement (.expr e ⟨semicolon, rfl⟩)
  let group := operand (.grouping ⟨lparen, rfl⟩ (assign (named "c") 4 (.plain nothing))
    ⟨rparen, rfl⟩)
  let ds : List Declaration :=
    [statement (assign (named "a") 1 (assign nothing 2 (assign (named "b") 3
      (.plain nothing)))),
     statement (assign group 5 (assign nothing 6 (.plain nothing)))]
  obtain ⟨herrors, -, herased, hlength⟩ := invalid_target_costs_no_statement ts ds rfl
  exact ⟨herrors, herased, hlength⟩

end Lox
