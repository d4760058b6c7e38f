import Lox.Proofs.Parser.Exactness
import Lox.Proofs.Parser.Recovery

/-!
# Programs with malformed statements

A program with mistakes in it is seen here as a list of segments: declarations without mistakes,
simple statements that can not be read, and blocks of segments.  A segment *stands* for what it is
read as when it is read so wherever it is: whatever follows, it takes its own tokens, and it logs
the same failures (`Segment.stands`).  So a list of segments is read segment by segment, and each
of them gives the statements and errors that it gives alone (`parse_segments`).
-/

namespace Lox

open Grammar Lox.Parser

/-- The statements and errors of several programs, in order. -/
def Program.join (ps : List Program) : Program :=
  ⟨ps.flatMap Program.statements, ps.flatMap Program.errors⟩

/-- The tokens of segments, one after the other. -/
def segmentTokens (segments : List (List Token × Program)) : List Token := segments.flatMap Prod.fst

/-- What segments are read as, one after the other. -/
def segmentProgram (segments : List (List Token × Program)) : Program :=
  Program.join (segments.map Prod.snd)

/-- The tokens are a segment, and the program is what is made of it. -/
inductive Segment : List Token → Program → Prop
  /-- One declaration without errors. -/
  | declaration {ts : List Token} {s : Stmt} (noEof : ∀ t ∈ ts, t.kind ≠ .eof)
      (read : parse ts = ⟨[s], []⟩) : Segment ts ⟨[s], []⟩
  /-- A simple statement that can not be read. -/
  | malformed {ts : List Token} {errors : List GrammarError} (noEof : ∀ t ∈ ts, t.kind ≠ .eof)
      (simple : Simple ts) (read : parse ts = ⟨[], errors⟩) : Segment ts ⟨[], errors⟩
  /-- A block of segments, which holds their statements and has their errors. -/
  | block {lbrace rbrace : Token} {inner : List (List Token × Program)}
      (left : lbrace.kind = .symbol .leftBrace) (right : rbrace.kind = .symbol .rightBrace)
      (segments : ∀ g ∈ inner, Segment g.1 g.2) :
      Segment (lbrace :: segmentTokens inner ++ [rbrace])
        ⟨[.block (segmentProgram inner).statements], (segmentProgram inner).errors⟩

/-! ### What is read so wherever it stands -/

/-- The failures give these errors, wherever the input ends. -/
def Gives (log : List Failure) (errors : List GrammarError) : Prop :=
  ∀ eof, log.map (Failure.toError eof) = errors

theorem gives_of_located {log : List Failure} (h : ∀ x ∈ log, x.found ≠ none) (eof : Token) :
    Gives log (log.map (Failure.toError eof)) := by
  intro eof'
  refine List.map_congr_left fun x hx => ?_
  obtain ⟨fault, found⟩ := x
  cases found with
  | none => exact absurd rfl (h _ hx)
  | some t => rfl

theorem Gives.append {log log' : List Failure} {errors errors' : List GrammarError}
    (h : Gives log errors) (h' : Gives log' errors') : Gives (log ++ log') (errors ++ errors') := by
  intro eof
  rw [List.map_append, h eof, h' eof]

/-- The tokens are one declaration or none, and they are read as this program whatever follows. -/
structure Stands (ts : List Token) (p : Program) : Prop where
  noEof : ∀ t ∈ ts, t.kind ≠ .eof
  /-- The first token belongs neither to what stands before nor to the end of a block. -/
  first : ∃ t u, ts = t :: u ∧ t.kind ≠ .keyword .elseKw ∧ t.kind ≠ .symbol .rightBrace
  read : ∃ (s : Option Stmt) (log : List Failure), p.statements = s.toList ∧ Gives log p.errors ∧
    ∀ b rest, (ts ++ rest).length ≤ b → Elseless rest →
      Takes (Parser.declaration (expression b) (statement b)) ts s log rest

/-! ### Lists of segments -/

section Declarations

variable {stops : Kind → Bool} {declare : Parser (Option Stmt)} {rest : List Token}

theorem takes_declarations_nil (h : ∀ t ∈ rest.head?, stops t.kind = true) (c : Nat) :
    Takes (declarations stops declare c) [] [] [] rest := by
  show declarations stops declare c rest = ⟨.ok [], rest, []⟩
  cases c with
  | zero => rfl
  | succ c =>
    cases rest with
    | nil => rfl
    | cons t rest => rw [declarations, if_pos (h t rfl)]

theorem takes_declarations_cons {c : Nat} {t : Token} {u us : List Token} {s : Option Stmt}
    {others : List Stmt} {log logs : List Failure} (ht : stops t.kind = false)
    (hfirst : Takes declare (t :: u) s log (us ++ rest))
    (hnext : Takes (declarations stops declare c) us others logs rest) :
    Takes (declarations stops declare (c + 1)) (t :: u ++ us) (s.toList ++ others) (log ++ logs)
      rest := by
  have hall : Takes (do
      let first ← declare
      let others ← declarations stops declare c
      return first.toList ++ others : Parser (List Stmt)) (t :: u ++ us) (s.toList ++ others)
      (log ++ logs) rest := hfirst.bind hnext.bind_pure
  rw [Takes, List.cons_append, List.cons_append] at hall ⊢
  rw [declarations, if_neg (by simp [ht])]
  exact hall

end Declarations

section Lists

variable {segments : List (List Token × Program)}

theorem elseless_segmentTokens (h : ∀ g ∈ segments, Stands g.1 g.2) {rest : List Token}
    (hrest : Elseless rest) : Elseless (segmentTokens segments ++ rest) := by
  cases segments with
  | nil => exact hrest
  | cons g segments =>
    obtain ⟨t, u, hts, helse, -⟩ := (h g List.mem_cons_self).first
    rw [segmentTokens, List.flatMap_cons, hts]
    intro t' ht'
    obtain rfl : t = t' := by simpa using ht'
    exact helse

/-- **Segments are read one by one**, up to the end of the input or of the block around them. -/
theorem takes_segments (h : ∀ g ∈ segments, Stands g.1 g.2) :
    ∃ log, Gives log (segmentProgram segments).errors ∧
      ∀ (stops : Kind → Bool) (b c : Nat) (rest : List Token),
        (∀ k, k ≠ .symbol .rightBrace → stops k = false) →
        (segmentTokens segments ++ rest).length ≤ b → (segmentTokens segments).length ≤ c →
        Elseless rest → (∀ t ∈ rest.head?, stops t.kind = true) →
        Takes (declarations stops (Parser.declaration (expression b) (statement b)) c)
          (segmentTokens segments) (segmentProgram segments).statements log rest := by
  induction segments with
  | nil =>
    exact ⟨[], fun _ => rfl, fun stops b c rest _ _ _ _ hrest => takes_declarations_nil hrest c⟩
  | cons g segments ih =>
    obtain ⟨hg, hothers⟩ := List.forall_mem_cons.mp h
    obtain ⟨logs, hlogs, htakes⟩ := ih hothers
    obtain ⟨s, log, hs, hlog, hread⟩ := hg.read
    obtain ⟨t, u, hts, -, hbrace⟩ := hg.first
    refine ⟨log ++ logs, hlog.append hlogs, fun stops b c rest hstops hb hc helse hrest => ?_⟩
    have htokens : segmentTokens (g :: segments) = g.1 ++ segmentTokens segments :=
      List.flatMap_cons
    have hstatements : (segmentProgram (g :: segments)).statements =
        s.toList ++ (segmentProgram segments).statements := hs ▸ List.flatMap_cons
    rw [htokens, List.append_assoc] at hb
    rw [htokens, List.length_append, hts, List.length_cons] at hc
    have hfirst := hread b (segmentTokens segments ++ rest) hb
      (elseless_segmentTokens hothers helse)
    obtain ⟨c, rfl⟩ : ∃ d, c = d + 1 := Nat.exists_eq_succ_of_ne_zero (by omega)
    have hnext := htakes stops b c rest hstops (by rw [List.length_append] at hb; omega) (by omega)
      helse hrest
    rw [hts] at hfirst
    rw [htokens, hstatements, hts]
    exact takes_declarations_cons (hstops _ hbrace) hfirst hnext

theorem body_eq_self {ts : List Token} (h : ∀ t ∈ ts, t.kind ≠ .eof) : Program.body ts = ts := by
  have hbody := body_append h [] nofun
  rwa [List.append_nil] at hbody

/-- **A list of segments is read as the segments say.** -/
theorem parse_of_stands (h : ∀ g ∈ segments, Stands g.1 g.2) (tail : List Token)
    (htail : ∀ t ∈ tail, t.kind = .eof) :
    parse (segmentTokens segments ++ tail) = segmentProgram segments := by
  have hnoEof : ∀ t ∈ segmentTokens segments, t.kind ≠ .eof := by
    intro t ht
    obtain ⟨g, hg, ht⟩ := List.mem_flatMap.mp ht
    exact (h g hg).noEof t ht
  obtain ⟨log, hlog, htakes⟩ := takes_segments h
  have hprogram := htakes (fun _ => false) (segmentTokens segments).length
    (segmentTokens segments).length [] (fun _ _ => rfl)
    (Nat.le_of_eq (congrArg List.length (List.append_nil _))) (Nat.le_refl _) (by simp [Elseless])
    (by simp)
  rw [Takes, List.append_nil] at hprogram
  unfold parse program
  rw [body_append hnoEof tail fun t ht => htail t (List.mem_of_mem_head? ht)]
  dsimp only
  rw [hprogram, hlog]
  rfl

end Lists

/-! ### Segments stand for what they are read as -/

theorem stands_of_declaration {ts : List Token} {s : Stmt} (hnoEof : ∀ t ∈ ts, t.kind ≠ .eof)
    (hread : parse ts = ⟨[s], []⟩) : Stands ts ⟨[s], []⟩ := by
  obtain ⟨ds, hproper, hnear, htokens, htrees⟩ :=
    exists_derivation_of_parse (congrArg Program.errors hread)
  rw [body_eq_self hnoEof] at htokens
  rw [congrArg Program.statements hread] at htrees
  obtain _ | ⟨d, _ | ⟨d', ds⟩⟩ := ds
  · cases htrees
  · obtain rfl : s = d.tree := List.head_eq_of_cons_eq htrees
    obtain rfl : d.tokens = ts := by
      rw [← htokens, Declaration.tokensOf, Declaration.tokensOf, List.append_nil]
    have hfaults : d.faults = [] := d.faults_eq_nil_iff.mpr hproper.1
    refine ⟨hnoEof, ?_, some d.tree, [], rfl, fun _ => rfl, fun b rest hb helse => ?_⟩
    · obtain ⟨t, u, htu, hfirst⟩ := d.exists_first
      refine ⟨t, u, htu, ?_, ?_⟩
      · rintro hk
        rw [hk] at hfirst
        obtain hfirst | hfirst := hfirst <;> cases hfirst
      · rintro hk
        rw [hk] at hfirst
        obtain hfirst | hfirst := hfirst <;> cases hfirst
    · rw [← hfaults]
      exact takes_declaration (completes_expression b) (completes_statement b) d rest hb hnear.1
        helse
  · cases htrees

/-- What is made of a list that is one declaration, or none. -/
theorem parse_of_declaration {ts : List Token} (hnoEof : ∀ t ∈ ts, t.kind ≠ .eof) (hne : ts ≠ [])
    {s : Option Stmt} {log : List Failure}
    (h : Parser.declaration (expression ts.length) (statement ts.length) ts = ⟨.ok s, [], log⟩) :
    parse ts = ⟨s.toList, log.map (Failure.toError (Program.endToken ts))⟩ := by
  obtain ⟨t, u, rfl⟩ := List.exists_cons_of_ne_nil hne
  have hfirst : Takes (Parser.declaration (expression (t :: u).length) (statement (t :: u).length))
      (t :: u) s log ([] ++ []) := by rwa [Takes, List.append_nil, List.append_nil]
  have hall : Takes (declarations (fun _ => false) (Parser.declaration (expression (t :: u).length)
      (statement (t :: u).length)) (u.length + 1)) (t :: u ++ []) (s.toList ++ []) (log ++ []) [] :=
    takes_declarations_cons rfl hfirst (takes_declarations_nil (by simp) u.length)
  simp only [Takes, List.append_nil] at hall
  have hprogram : program (t :: u) = ⟨.ok s.toList, [], log⟩ := hall
  unfold parse
  rw [body_eq_self hnoEof, hprogram]
  rfl

theorem stands_of_malformed {ts : List Token} {errors : List GrammarError}
    (hnoEof : ∀ t ∈ ts, t.kind ≠ .eof) (hsimple : Simple ts) (hread : parse ts = ⟨[], errors⟩) :
    Stands ts ⟨[], errors⟩ := by
  have hne : ts ≠ [] := hsimple.closes.ne_nil
  have hsettled := settled_attempt hsimple (Nat.le_refl ts.length)
  match hattempt : attempt (expression ts.length) (statement ts.length) ts, hsettled with
  | ⟨.ok s, rest, log⟩, hsettled =>
    obtain rfl : rest = [] := hsettled
    have hdeclaration : Parser.declaration (expression ts.length) (statement ts.length) ts =
        ⟨.ok (some s), [], log⟩ := by
      rw [declaration_eq, recovering, hattempt]
    have hparse := parse_of_declaration hnoEof hne hdeclaration
    rw [hread] at hparse
    cases hparse
  | ⟨.error f, rest, log⟩, _ =>
    obtain ⟨hlocated, hdeclaration⟩ :=
      declaration_of_attempt_error hsimple (Nat.le_refl ts.length) hattempt
    have hparse := hdeclaration ts.length [] (Nat.le_refl _)
    rw [List.append_nil] at hparse
    have herrors :=
      congrArg Program.errors ((parse_of_declaration hnoEof hne hparse).symm.trans hread)
    refine ⟨hnoEof, ?_, none, log ++ [f], rfl, ?_, fun b rest hb _ => ?_⟩
    · obtain ⟨t, u, rfl⟩ := List.exists_cons_of_ne_nil hne
      exact ⟨t, u, rfl, hsimple.first t rfl, (hsimple.kinds t List.mem_cons_self).2.1⟩
    · exact herrors ▸ gives_of_located hlocated _
    · rw [List.length_append] at hb
      exact hdeclaration b rest (by omega)

theorem stands_of_block {lbrace rbrace : Token} {inner : List (List Token × Program)}
    (hleft : lbrace.kind = .symbol .leftBrace) (hright : rbrace.kind = .symbol .rightBrace)
    (h : ∀ g ∈ inner, Stands g.1 g.2) :
    Stands (lbrace :: segmentTokens inner ++ [rbrace])
      ⟨[.block (segmentProgram inner).statements], (segmentProgram inner).errors⟩ := by
  obtain ⟨log, hlog, htakes⟩ := takes_segments h
  refine ⟨?_, ⟨lbrace, _, rfl, by simp [hleft], by simp [hleft]⟩, some (.block _), log, rfl, hlog,
    fun b rest hb _ => ?_⟩
  · intro t ht
    obtain ht | ht := List.mem_append.mp ht
    · obtain rfl | ht := List.mem_cons.mp ht
      · simp [hleft]
      · obtain ⟨g, hg, ht⟩ := List.mem_flatMap.mp ht
        exact (h g hg).noEof t ht
    · obtain rfl := List.mem_singleton.mp ht
      simp [hright]
  · obtain _ | b := b
    · exact absurd hb (Nat.not_succ_le_zero _)
    have hlen : (segmentTokens inner ++ rbrace :: rest).length ≤ b := by simpa using hb
    have hbody := htakes (· = .symbol .rightBrace) b b (rbrace :: rest)
      (fun k hk => decide_eq_false hk) hlen (by rw [List.length_append] at hlen; omega)
      (by simp [Elseless, hright]) (by simp [hright])
    have hblock : Takes (Parser.block b (Parser.declaration (expression b) (statement b)))
        (segmentTokens inner ++ [rbrace]) (.block (segmentProgram inner).statements) (log ++ [])
        rest := hbody.bind (Takes.expect_bind hright (takes_pure _ rest))
    rw [List.append_nil] at hblock
    rw [Takes, declaration_eq, recovering, List.cons_append, List.cons_append, attempt,
      if_neg (by simp [hleft]), statement, hleft]
    dsimp only
    rw [hblock]

theorem Segment.stands {ts : List Token} {p : Program} (h : Segment ts p) : Stands ts p := by
  induction h with
  | declaration noEof read => exact stands_of_declaration noEof read
  | malformed noEof simple read => exact stands_of_malformed noEof simple read
  | block left right _ ih => exact stands_of_block left right ih

/-- **The damage of a malformed statement is bounded to itself.**  Segments one after the other,
with an end of input behind them or without, are read as what each of them is read as alone: the
statements are those of the declarations and of the blocks, in order, and the errors are those of
the malformed statements, in order, wherever in a block they are. -/
theorem parse_segments (segments : List (List Token × Program))
    (h : ∀ g ∈ segments, Segment g.1 g.2) (tail : List Token) (htail : ∀ t ∈ tail, t.kind = .eof) :
    (∀ g ∈ segments, parse g.1 = g.2) ∧
      parse (segmentTokens segments ++ tail) = segmentProgram segments := by
  have hstands : ∀ g ∈ segments, Stands g.1 g.2 := fun g hg => (h g hg).stands
  refine ⟨fun g hg => ?_, parse_of_stands hstands tail htail⟩
  have hone : ∀ g' ∈ [g], Stands g'.1 g'.2 := List.forall_mem_singleton.mpr (hstands g hg)
  have hsingle := parse_of_stands hone [] nofun
  simpa [segmentTokens, segmentProgram, Program.join] using hsingle

/-- Of `( ; { print a ; ) ; } a ;` and an end of input the block and the last statement are read,
with the two errors of `( ;` and `) ;`. -/
theorem parse_segments_nested :
    let lparen : Token := ⟨.symbol .leftParen, "(", 1⟩
    let rparen : Token := ⟨.symbol .rightParen, ")", 2⟩
    let semicolon : Token := ⟨.symbol .semicolon, ";", 1⟩
    let a : Token := ⟨.identifier "a", "a", 2⟩
    let inner : List (List Token × Program) :=
      [([⟨.keyword .printKw, "print", 2⟩, a, semicolon], ⟨[.print (.name a)], []⟩),
        ([rparen, semicolon], ⟨[], [⟨.expression, rparen⟩]⟩)]
    let segments : List (List Token × Program) :=
      [([lparen, semicolon], ⟨[], [⟨.expression, semicolon⟩]⟩),
        (⟨.symbol .leftBrace, "\x7b", 2⟩ :: segmentTokens inner ++ [⟨.symbol .rightBrace, "\x7d", 3⟩],
          ⟨[.block [.print (.name a)]], [⟨.expression, rparen⟩]⟩),
        ([a, semicolon], ⟨[.expr (.name a)], []⟩)]
    (∀ g ∈ segments, Segment g.1 g.2) ∧
      parse (segmentTokens segments ++ [⟨.eof, "", 4⟩]) =
        ⟨[.block [.print (.name a)], .expr (.name a)],
          [⟨.expression, semicolon⟩, ⟨.expression, rparen⟩]⟩ := by
  intro lparen rparen semicolon a inner segments
  have hmalformed : ∀ t : Token, t = lparen ∨ t = rparen → Simple [t, semicolon] := by
    intro t ht
    refine ⟨⟨[t], semicolon, rfl, rfl, ?_⟩, ?_, ?_, ?_⟩ <;> obtain rfl | rfl := ht <;> decide
  have hinner : ∀ g ∈ inner, Segment g.1 g.2 := by
    simp only [inner, List.forall_mem_cons]
    exact ⟨.declaration (by decide) rfl,
      .malformed (by decide) (hmalformed _ (.inr rfl)) rfl, nofun⟩
  have hsegments : ∀ g ∈ segments, Segment g.1 g.2 := by
    simp only [segments, List.forall_mem_cons]
    exact ⟨.malformed (by decide) (hmalformed _ (.inl rfl)) rfl, .block rfl rfl hinner,
      .declaration (by decide) rfl, nofun⟩
  exact ⟨hsegments, (parse_segments segments hsegments [⟨.eof, "", 4⟩] (by decide)).2⟩

end Lox
