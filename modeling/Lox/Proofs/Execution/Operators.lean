import Lox.Proofs.Execution.Origin
import Lox.Proofs.Parser.Naturality
import Lox.Proofs.Parser.Shape

/-!
# Programs know their operators

An operator whose token has a kind that belongs in its place is never unknown, whatever its operands
are.  The trees that are read have only such operators, so no program that was read, in part or in
full, stops at an unknown operator.  Nor does any other runtime error carry that message.
-/

namespace Lox

/-! ### Operators in their place -/

namespace Operator

variable {op : Token} {x : RuntimeError}

theorem fault_of_faultAt {α : Type} {f : RuntimeFault}
    (h : (faultAt op f : Except RuntimeError α) = .error x) : x.fault = f := by
  cases h
  rfl

theorem unary_known (h : op.kind ∈ Kind.unaryOperators) {v : Value}
    (hx : unary op v = .error x) : x.fault ≠ .unknownOperator := by
  unfold unary at hx
  split at hx
  · split at hx
    · cases hx
    · exact fault_of_faultAt hx ▸ by decide
  · cases hx
  · next hminus hbang => simp_all [Kind.unaryOperators]

theorem numeric_known (h : op.kind ∈ Kind.binaryOperators) (hne : op.kind ≠ .symbol .equalEqual)
    (hne' : op.kind ≠ .symbol .bangEqual) (a b : Float) : ∃ v, numeric op a b = .ok v := by
  unfold numeric
  split
  case h_9 => simp_all [Kind.binaryOperators]
  all_goals exact ⟨_, rfl⟩

theorem binary_known (h : op.kind ∈ Kind.binaryOperators) {v w : Value}
    (hx : binary op v w = .error x) : x.fault ≠ .unknownOperator := by
  unfold binary at hx
  split at hx
  · cases hx
  · cases hx
  · next hne hne' =>
    split at hx
    · next a b =>
      obtain ⟨v, hv⟩ := numeric_known h hne hne' a b
      rw [hv] at hx
      cases hx
    · split at hx
      · cases hx
      · exact fault_of_faultAt hx ▸ by decide
    · split at hx
      · exact fault_of_faultAt hx ▸ by decide
      · exact fault_of_faultAt hx ▸ by decide

theorem decides_known (h : op.kind ∈ Kind.logicalOperators) {v : Value}
    (hx : decides op v = .error x) : x.fault ≠ .unknownOperator := by
  unfold decides at hx
  split at hx
  · cases hx
  · cases hx
  · next hor hand => simp_all [Kind.logicalOperators]

end Operator

/-! ### Trees -/

/-- **A well-shaped expression has no unknown operator.** -/
theorem Expr.Shaped.known {e : Expr} (h : e.Shaped) {x : RuntimeError} (hx : e.MayRaise x) :
    x.fault ≠ .unknownOperator := by
  induction e with
  | literal v => cases hx
  | grouping e ih => exact ih h hx
  | name t =>
    cases hx
    exact nofun
  | assign t e ih =>
    obtain hx | rfl := hx
    · exact ih h.2 hx
    · exact nofun
  | unary op e ih =>
    obtain ⟨hop, he, -⟩ := h
    obtain hx | ⟨v, hx⟩ := hx
    · exact ih he hx
    · exact Operator.unary_known hop hx
  | binary l op r ihl ihr =>
    obtain ⟨hop, hl, hr, -⟩ := h
    obtain hx | hx | ⟨v, w, hx⟩ := hx
    · exact ihl hl hx
    · exact ihr hr hx
    · exact Operator.binary_known hop hx
  | logical l op r ihl ihr =>
    obtain ⟨hop, hl, hr, -⟩ := h
    obtain hx | hx | ⟨v, hx⟩ := hx
    · exact ihl hl hx
    · exact ihr hr hx
    · exact Operator.decides_known hop hx

mutual

/-- **A well-shaped statement has no unknown operator.** -/
theorem Stmt.known (s : Stmt) (h : s.Shaped) {x : RuntimeError} (hx : s.MayRaise x) :
    x.fault ≠ .unknownOperator := by
  cases s with
  | block body =>
    rw [Stmt.Shaped] at h
    rw [Stmt.MayRaise] at hx
    exact Stmt.knownEach body h hx
  | expr e =>
    rw [Stmt.Shaped] at h
    rw [Stmt.MayRaise] at hx
    exact h.known hx
  | print e =>
    rw [Stmt.Shaped] at h
    rw [Stmt.MayRaise] at hx
    exact h.known hx
  | declare t initial =>
    cases initial with
    | none =>
      rw [Stmt.MayRaise] at hx
      exact hx.elim
    | some e =>
      rw [Stmt.Shaped] at h
      rw [Stmt.MayRaise] at hx
      exact h.2.known hx
  | ifThen c yes =>
    rw [Stmt.Shaped] at h
    rw [Stmt.MayRaise] at hx
    obtain hx | hx := hx
    · exact h.1.known hx
    · exact Stmt.known yes h.2.1 hx
  | ifElse c yes no =>
    rw [Stmt.Shaped] at h
    rw [Stmt.MayRaise] at hx
    obtain ⟨hc, ⟨hyes, -⟩, hno, -⟩ := h
    obtain hx | hx | hx := hx
    · exact hc.known hx
    · exact Stmt.known yes hyes hx
    · exact Stmt.known no hno hx
  | loop c body =>
    rw [Stmt.Shaped] at h
    rw [Stmt.MayRaise] at hx
    obtain hx | hx := hx
    · exact h.1.known hx
    · exact Stmt.known body h.2.1 hx

theorem Stmt.knownEach (ss : List Stmt) (h : Stmt.ShapedEach ss) {x : RuntimeError}
    (hx : Stmt.MayRaiseEach ss x) : x.fault ≠ .unknownOperator := by
  cases ss with
  | nil =>
    rw [Stmt.MayRaiseEach] at hx
    exact hx.elim
  | cons s ss =>
    rw [Stmt.ShapedEach] at h
    rw [Stmt.MayRaiseEach] at hx
    obtain hx | hx := hx
    · exact Stmt.known s h.1 hx
    · exact Stmt.knownEach ss h.2 hx

end

/-! ### Messages -/

/-- A message begins alike for all lexemes. -/
theorem RuntimeFault.take_message (fault : RuntimeFault) (lexeme : String) :
    (fault.message lexeme).toList.take 3 = (fault.message "").toList.take 3 := by
  have htake : ∀ a b : String, 3 ≤ a.toList.length →
      (a ++ lexeme ++ b).toList.take 3 = (a ++ "" ++ b).toList.take 3 := by
    intro a b ha
    simp only [String.toList_append, List.append_assoc, List.take_append_of_le_length ha]
  cases fault with
  | unknownOperator => exact htake _ _ (by decide)
  | undefinedVariable => exact htake _ _ (by decide)
  | _ => rfl

/-- A message that names its lexeme is the message of no other fault. -/
theorem RuntimeError.message_ne_message {x : RuntimeError} {f : RuntimeFault} (h : x.fault ≠ f)
    (hf : f = .unknownOperator ∨ f = .undefinedVariable) (lexeme : String) :
    x.message ≠ f.message lexeme := by
  intro hm
  have htake := congrArg (fun s => s.toList.take 3) hm
  simp only [RuntimeError.message] at htake
  rw [RuntimeFault.take_message, RuntimeFault.take_message _ lexeme] at htake
  generalize x.fault = fault at h htake
  obtain rfl | rfl := hf
  · cases fault with
    | unknownOperator => exact h rfl
    | _ => exact absurd htake (by decide)
  · cases fault with
    | undefinedVariable => exact h rfl
    | _ => exact absurd htake (by decide)

/-- Only an unknown operator has the message of one. -/
theorem RuntimeError.message_ne {x : RuntimeError} (h : x.fault ≠ .unknownOperator)
    (lexeme : String) : x.message ≠ "Unknown operator '" ++ lexeme ++ "'." :=
  message_ne_message h (.inl rfl) lexeme

/-! ### Programs -/

theorem mem_of_mem_tokens {ss : List Stmt} {s : Stmt} (hs : s ∈ ss) {t : Token}
    (ht : t ∈ s.tokens) : t ∈ Stmt.tokensOf ss := by
  induction ss with
  | nil => cases hs
  | cons s' ss ih =>
    rw [Stmt.tokensOf, List.mem_append]
    obtain rfl | hs := List.mem_cons.mp hs
    · exact .inl ht
    · exact .inr (ih hs)

theorem mem_body_of_mem_parse {ts : List Token} {s : Stmt} (hs : s ∈ (parse ts).statements)
    {t : Token} (ht : t ∈ s.tokens) : t ∈ Program.body ts := by
  obtain ⟨ss, rest, log, hprogram, hstatements, -⟩ := exists_parse_eq ts
  exact Parser.mem_of_mem_tokensOf_program hprogram t (mem_of_mem_tokens (hstatements ▸ hs) ht)

theorem mem_of_mem_parse {ts : List Token} {s : Stmt} (hs : s ∈ (parse ts).statements) {t : Token}
    (ht : t ∈ s.tokens) : t ∈ ts :=
  (List.takeWhile_sublist _).subset (mem_body_of_mem_parse hs ht)

/-- The computation stops with no runtime error that has the message of an unknown operator. -/
def KnowsOperators {α : Type} (x : Run α) : Prop :=
  ∀ m e m', x m = .error (.fault e) m' →
    ∀ lexeme, e.message ≠ "Unknown operator '" ++ lexeme ++ "'."

theorem knowsOperators_of_stops {α : Type} {x : Run α} {P : RuntimeError → Prop}
    (h : Stops x (Stop.Within P)) (hP : ∀ e, P e → e.fault ≠ .unknownOperator) :
    KnowsOperators x :=
  fun m e m' hm => RuntimeError.message_ne (hP e (h m (.fault e) m' hm))

/-- **Every program that is read is well shaped, has its tokens from the list, and never stops at an
unknown operator.**  The list may be any: with faults in it, and without an end of input. -/
theorem parse_shaped_and_knows_operators (ts : List Token) :
    (∀ s ∈ (parse ts).statements, s.Shaped ∧ (∀ t ∈ s.tokens, t ∈ ts) ∧
      ∀ bound env, KnowsOperators (s.exec bound env)) ∧
    ∀ bound env, KnowsOperators (interpret bound env (parse ts).statements) ∧
      KnowsOperators (Stmt.execBlock bound (parse ts).statements env) := by
  have hshaped : ∀ s ∈ (parse ts).statements, s.Shaped := fun s => shaped_of_mem_parse
  have hknown : ∀ x, Stmt.MayRaiseEach (parse ts).statements x → x.fault ≠ .unknownOperator :=
    fun x => Stmt.knownEach _ (Stmt.shapedEach_iff.mpr hshaped)
  refine ⟨fun s hs => ⟨hshaped s hs, fun t => mem_of_mem_parse hs, fun bound env => ?_⟩,
    fun bound env => ⟨?_, ?_⟩⟩
  · exact knowsOperators_of_stops (Stmt.stops_exec bound s env) fun x => Stmt.known s (hshaped s hs)
  · exact knowsOperators_of_stops (stops_interpret bound env _) hknown
  · exact knowsOperators_of_stops ((Run.stops_enterBlock env).bind fun _ =>
      Stmt.stops_execEach bound _ env) hknown

/-- Of `) ; print ! a ;`, where the operator is spelt `?` and no end of input follows, the second
statement is read. -/
theorem parse_shaped_and_knows_operators_after_error :
    let bang : Token := ⟨.symbol .bang, "?", 1⟩
    let a : Token := ⟨.identifier "a", "a", 1⟩
    let semicolon : Token := ⟨.symbol .semicolon, ";", 1⟩
    let ts := [⟨.symbol .rightParen, ")", 1⟩, semicolon, ⟨.keyword .printKw, "print", 1⟩, bang, a,
      semicolon]
    let s : Stmt := .print (.unary bang (.name a))
    (parse ts).errors.length = 1 ∧ (parse ts).statements = [s] ∧ s.Shaped ∧
      (∀ t ∈ s.tokens, t ∈ ts) ∧ ∀ bound env, KnowsOperators (s.exec bound env) := by
  intro bang a semicolon ts s
  have hs : (parse ts).statements = [s] := rfl
  have hmem : s ∈ (parse ts).statements := hs ▸ List.mem_singleton_self s
  exact ⟨rfl, hs, (parse_shaped_and_knows_operators ts).1 s hmem⟩

end Lox
