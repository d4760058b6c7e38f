import Lox.Proofs.Lockstep
import Lox.Proofs.Relabel
import Lox.Proofs.Stack

/-!
# Two runs on stacks that correspond

Many statements about programs compare two runs: of one program on two stacks, or of two programs
that differ in their tokens.  A *correspondence* says which scopes belong together, at which depth,
which sinks and which errors, and it is kept by each single thing that a program does to a variable
and by every line that it writes.  Then it is kept by every program (`Correspondence.follows_exec`):
the two runs go in lockstep and end with corresponding scopes and sinks.

The depth counts the blocks that were entered since the correspondence was set up.  At depth zero a
correspondence need not be kept by declarations (`DeclaresAt`); a statement that does not declare
anything outside of its blocks does without.  What is asked of a token that names a variable may
differ from what is asked of every token.  `same` lets nothing differ, and other correspondences are
made from it by saying what may.
-/

namespace Lox

/-- Nothing is declared outside of the blocks of a statement. -/
def Stmt.Undeclaring : Stmt → Prop
  | .block _ => True
  | .expr _ => True
  | .print _ => True
  | .declare _ _ => False
  | .ifThen _ yes => yes.Undeclaring
  | .ifElse _ yes no => yes.Undeclaring ∧ no.Undeclaring
  | .loop _ body => body.Undeclaring

/-- Scopes, sinks and errors that belong together in the run of a program and in that of its
relabelling. -/
structure Correspondence where
  /-- The token of the second program in the place of one of the first. -/
  label : Token → Token
  /-- The tokens that the first program may have. -/
  Allowed : Token → Prop
  /-- The tokens that may name a variable of the first program. -/
  Named : Token → Prop
  Scopes : Nat → List Scope → List Scope → Prop
  Sinks : Sink → Sink → Prop
  Errors : RuntimeError → RuntimeError → Prop
  kind_label : ∀ t, (label t).kind = t.kind
  fault : ∀ (f : RuntimeFault) {t : Token}, Allowed t → Errors ⟨f, t⟩ ⟨f, label t⟩
  lookup : ∀ {depth l l'} {t : Token}, Named t → Scopes depth l l' →
    (l.findSome? fun scope => scope[t.lexeme]?) = l'.findSome? fun scope => scope[(label t).lexeme]?
  assign : ∀ {depth l l'} {t : Token} (v : Value), Named t → Scopes depth l l' →
    Option.Rel (Scopes depth) (Stack.assign? t.lexeme v l) (Stack.assign? (label t).lexeme v l')
  define : ∀ {depth l l'} {t : Token} (v : Value), Named t → Scopes (depth + 1) l l' →
    Scopes (depth + 1) (Stack.define t.lexeme v l) (Stack.define (label t).lexeme v l')
  write : ∀ {sink sink'} (bytes : ByteArray), Sinks sink sink' →
    Lockstep Eq Eq Sinks (Sink.write bytes sink) (Sink.write bytes sink')
  push : ∀ {depth l l'}, Scopes depth l l' → Scopes (depth + 1) ({} :: l) ({} :: l')
  pop : ∀ {depth l l'}, Scopes (depth + 1) l l' → Scopes depth l.tail l'.tail

namespace Correspondence

/-- One program on stacks that do not differ. -/
def same : Correspondence where
  label := id
  Allowed _ := True
  Named _ := True
  Scopes _ := Eq
  Sinks := Eq
  Errors := Eq
  kind_label _ := rfl
  fault _ _ _ := rfl
  lookup _ h := h ▸ rfl
  assign {_ l _ t} v _ h := by
    subst h
    show Option.Rel Eq (Stack.assign? t.lexeme v l) (Stack.assign? t.lexeme v l)
    cases Stack.assign? t.lexeme v l with
    | none => exact .none
    | some l => exact .some rfl
  define v _ h := h ▸ rfl
  write bytes h := h ▸ .refl (fun _ => rfl) _
  push h := congrArg ({} :: ·) h
  pop h := congrArg List.tail h

variable {α β : Type} (C : Correspondence) {depth : Nat}

/-! ### Expressions -/

/-- Two computations on corresponding scopes go in lockstep. -/
def EvalFollows (depth : Nat) (x y : Stack.Eval α) : Prop :=
  ∀ l l', C.Scopes depth l l' → Lockstep Eq C.Errors (C.Scopes depth) (x l) (y l')

variable {C}

theorem EvalFollows.bind {x y : Stack.Eval α} {f g : α → Stack.Eval β}
    (hxy : C.EvalFollows depth x y) (hfg : ∀ a, C.EvalFollows depth (f a) (g a)) :
    C.EvalFollows depth (x >>= f) (y >>= g) := by
  intro l l' h
  refine (hxy l l' h).bind fun a b l l' hab h => ?_
  subst hab
  exact hfg a l l' h

theorem evalFollows_pure (a : α) : C.EvalFollows depth (pure a) (pure a) :=
  fun _ _ h => .pure rfl h

theorem evalFollows_ofExcept {op : Token} (hop : C.Allowed op) {r r' : Except RuntimeError α}
    (h : Operator.Alike op (C.label op) r r') :
    C.EvalFollows depth (Stack.ofExcept r) (Stack.ofExcept r') := by
  intro l l' hl
  cases h with
  | ok a => exact .ok rfl hl
  | fault f => exact .error (C.fault f hop) hl

theorem evalFollows_lookup {t : Token} (ht : C.Allowed t) (hn : C.Named t) :
    C.EvalFollows depth (Stack.lookup t) (Stack.lookup (C.label t)) := by
  intro l l' h
  unfold Stack.lookup
  rw [← C.lookup hn h]
  cases l.findSome? fun scope => scope[t.lexeme]? with
  | some v => exact .ok rfl h
  | none => exact .error (C.fault .undefinedVariable ht) h

theorem evalFollows_assign {t : Token} (ht : C.Allowed t) (hn : C.Named t) (v : Value) :
    C.EvalFollows depth (Stack.assign t v) (Stack.assign (C.label t) v) := by
  intro l l' h
  have ha := C.assign v hn h
  unfold Stack.assign
  match Stack.assign? t.lexeme v l, Stack.assign? (C.label t).lexeme v l', ha with
  | _, _, .some hl => exact .ok rfl hl
  | _, _, .none => exact .error (C.fault .undefinedVariable ht) h

/-- **Evaluation keeps a correspondence.** -/
theorem evalFollows_eval (e : Expr) (he : ∀ t ∈ e.tokens, C.Allowed t)
    (hn : ∀ t ∈ e.names, C.Named t) :
    C.EvalFollows depth (Stack.eval e) (Stack.eval (e.relabel C.label)) := by
  induction e with
  | literal v => exact evalFollows_pure v
  | grouping e ih => exact ih he hn
  | name t =>
    exact evalFollows_lookup (he t (List.mem_singleton_self t)) (hn t (List.mem_singleton_self t))
  | assign t e ih =>
    rw [Expr.tokens, List.forall_mem_cons] at he
    rw [Expr.names, List.forall_mem_cons] at hn
    exact (ih he.2 hn.2).bind fun v =>
      (evalFollows_assign he.1 hn.1 v).bind fun _ => evalFollows_pure v
  | unary op e ih =>
    rw [Expr.tokens, List.forall_mem_cons] at he
    exact (ih he.2 hn).bind fun v =>
      evalFollows_ofExcept he.1 (Operator.alike_unary (C.kind_label op) v)
  | binary l op r ihl ihr =>
    rw [Expr.tokens, List.forall_mem_append, List.forall_mem_cons] at he
    rw [Expr.names, List.forall_mem_append] at hn
    obtain ⟨hl, hop, hr⟩ := he
    exact (ihl hl hn.1).bind fun x => (ihr hr hn.2).bind fun y =>
      evalFollows_ofExcept hop (Operator.alike_binary (C.kind_label op) x y)
  | logical l op r ihl ihr =>
    rw [Expr.tokens, List.forall_mem_append, List.forall_mem_cons] at he
    rw [Expr.names, List.forall_mem_append] at hn
    obtain ⟨hl, hop, hr⟩ := he
    refine (ihl hl hn.1).bind fun v =>
      (evalFollows_ofExcept hop (Operator.alike_decides (C.kind_label op) v)).bind fun b => ?_
    cases b with
    | true => exact evalFollows_pure v
    | false => exact ihr hr hn.2

/-! ### Statements -/

/-- Two ends of a run that correspond. -/
inductive Stops (C : Correspondence) : Stop → Stop → Prop
  | fault {e e' : RuntimeError} (h : C.Errors e e') : Stops C (.fault e) (.fault e')
  | refused (f : SinkFault) : Stops C (.refused f) (.refused f)
  | exhausted : Stops C .exhausted .exhausted

theorem Stops.eq {e e' : Stop} (h : C.Stops e e')
    (herrors : ∀ e e', C.Errors e e' → e = e') : e = e' := by
  cases h with
  | fault h => exact congrArg Stop.fault (herrors _ _ h)
  | refused f => rfl
  | exhausted => rfl

/-- Two stacks that correspond, with their sinks. -/
def Stacks (C : Correspondence) (depth : Nat) (t t' : Stack) : Prop :=
  C.Scopes depth t.scopes t'.scopes ∧ C.Sinks t.sink t'.sink

/-- Two computations on corresponding stacks go in lockstep. -/
def Follows (C : Correspondence) (depth : Nat) (x y : Stack.Run α) : Prop :=
  ∀ t t', C.Stacks depth t t' → Lockstep Eq C.Stops (C.Stacks depth) (x t) (y t')

theorem Follows.bind {x y : Stack.Run α} {f g : α → Stack.Run β}
    (hxy : C.Follows depth x y) (hfg : ∀ a, C.Follows depth (f a) (g a)) :
    C.Follows depth (x >>= f) (y >>= g) := by
  intro t t' h
  refine (hxy t t' h).bind fun a b t t' hab h => ?_
  subst hab
  exact hfg a t t' h

theorem follows_pure (a : α) : C.Follows depth (pure a) (pure a) :=
  fun _ _ h => .pure rfl h

theorem follows_onScopes {x y : Stack.Eval α} (hxy : C.EvalFollows depth x y) :
    C.Follows depth (Stack.onScopes x) (Stack.onScopes y) := by
  intro ⟨l, sink⟩ ⟨l', sink'⟩ ⟨hl, hsink⟩
  have hend := hxy l l' hl
  unfold Stack.onScopes
  simp only
  match x l, y l', hend with
  | _, _, .ok hab hl => exact .ok hab ⟨hl, hsink⟩
  | _, _, .error hed hl => exact .error (.fault hed) ⟨hl, hsink⟩

theorem follows_onSink {x : EStateM SinkFault Sink α}
    (hx : ∀ sink sink', C.Sinks sink sink' → Lockstep Eq Eq C.Sinks (x sink) (x sink')) :
    C.Follows depth (Stack.onSink x) (Stack.onSink x) := by
  intro ⟨l, sink⟩ ⟨l', sink'⟩ ⟨hl, hsink⟩
  have hend := hx sink sink' hsink
  unfold Stack.onSink
  simp only
  match x sink, x sink', hend with
  | _, _, .ok hab hs => exact .ok hab ⟨hl, hs⟩
  | _, _, .error hed hs => exact .error (hed ▸ .refused _) ⟨hl, hs⟩

theorem follows_writeLine (text : String) :
    C.Follows depth (Stack.writeLine text) (Stack.writeLine text) :=
  follows_onSink fun _ _ => C.write _

/-- Declarations keep the correspondence at the given depth. -/
def DeclaresAt (C : Correspondence) (depth : Nat) : Prop :=
  ∀ l l' (t : Token) (v : Value), C.Named t → C.Scopes depth l l' →
    C.Scopes depth (Stack.define t.lexeme v l) (Stack.define (C.label t).lexeme v l')

theorem declaresAt_succ : C.DeclaresAt (depth + 1) := fun _ _ _ v => C.define v

theorem follows_define (hdeclares : C.DeclaresAt depth) {t : Token} (hn : C.Named t) (v : Value) :
    C.Follows depth (Stack.changeScopes (Stack.define t.lexeme v))
      (Stack.changeScopes (Stack.define (C.label t).lexeme v)) :=
  fun _ _ h => .ok rfl ⟨hdeclares _ _ t v hn h.1, h.2⟩

theorem follows_inBlock {x y : Stack.Run α} (hxy : C.Follows (depth + 1) x y) :
    C.Follows depth (Stack.inBlock x) (Stack.inBlock y) := by
  intro ⟨l, sink⟩ ⟨l', sink'⟩ ⟨hl, hsink⟩
  have hend := hxy ⟨{} :: l, sink⟩ ⟨{} :: l', sink'⟩ ⟨C.push hl, hsink⟩
  unfold Stack.inBlock
  simp only
  match x ⟨{} :: l, sink⟩, y ⟨{} :: l', sink'⟩, hend with
  | _, _, .ok hab hst => exact .ok hab ⟨C.pop hst.1, hst.2⟩
  | _, _, .error hed hst => exact .error hed ⟨C.pop hst.1, hst.2⟩

theorem follows_whileTrue {c c' : Stack.Run Value} {body body' : Stack.Run Unit}
    (hc : C.Follows depth c c') (hbody : C.Follows depth body body') (bound : Nat) :
    C.Follows depth (Stack.whileTrue c body bound) (Stack.whileTrue c' body' bound) := by
  induction bound with
  | zero => exact fun _ _ h => .error .exhausted h
  | succ bound ih =>
    refine hc.bind fun v => ?_
    cases v.isTruthy with
    | true => exact hbody.bind fun _ => ih
    | false => exact follows_pure ()

mutual

/-- **Execution keeps a correspondence,** where declarations keep it or nothing is declared. -/
theorem follows_exec (bound depth : Nat) (s : Stmt) (hs : ∀ t ∈ s.tokens, C.Allowed t)
    (hn : ∀ t ∈ s.names, C.Named t) (hdeclares : C.DeclaresAt depth ∨ s.Undeclaring) :
    C.Follows depth (Stack.exec bound s) (Stack.exec bound (s.relabel C.label)) := by
  cases s with
  | block body =>
    rw [Stmt.tokens] at hs
    rw [Stmt.names] at hn
    rw [Stmt.relabel, Stack.exec, Stack.exec]
    exact follows_inBlock (follows_execEach bound (depth + 1) body hs hn declaresAt_succ)
  | expr e =>
    rw [Stmt.tokens] at hs
    rw [Stmt.names] at hn
    rw [Stmt.relabel, Stack.exec, Stack.exec]
    exact (follows_onScopes (evalFollows_eval e hs hn)).bind fun _ => follows_pure ()
  | print e =>
    rw [Stmt.tokens] at hs
    rw [Stmt.names] at hn
    rw [Stmt.relabel, Stack.exec, Stack.exec]
    exact (follows_onScopes (evalFollows_eval e hs hn)).bind fun v => follows_writeLine _
  | declare t initial =>
    have hkept : C.DeclaresAt depth := hdeclares.resolve_right id
    cases initial with
    | none =>
      rw [Stmt.names, List.forall_mem_singleton] at hn
      rw [Stmt.relabel, Stack.exec, Stack.exec]
      exact follows_define hkept hn .nil
    | some e =>
      rw [Stmt.tokens, List.forall_mem_cons] at hs
      rw [Stmt.names, List.forall_mem_cons] at hn
      rw [Stmt.relabel, Stack.exec, Stack.exec]
      exact (follows_onScopes (evalFollows_eval e hs.2 hn.2)).bind fun v =>
        follows_define hkept hn.1 v
  | ifThen c yes =>
    rw [Stmt.tokens, List.forall_mem_append] at hs
    rw [Stmt.names, List.forall_mem_append] at hn
    rw [Stmt.relabel, Stack.exec, Stack.exec]
    refine (follows_onScopes (evalFollows_eval c hs.1 hn.1)).bind fun v => ?_
    cases v.isTruthy with
    | true => exact follows_exec bound depth yes hs.2 hn.2 hdeclares
    | false => exact follows_pure ()
  | ifElse c yes no =>
    rw [Stmt.tokens, List.forall_mem_append, List.forall_mem_append] at hs
    rw [Stmt.names, List.forall_mem_append, List.forall_mem_append] at hn
    rw [Stmt.relabel, Stack.exec, Stack.exec]
    refine (follows_onScopes (evalFollows_eval c hs.1 hn.1)).bind fun v => ?_
    cases v.isTruthy with
    | true => exact follows_exec bound depth yes hs.2.1 hn.2.1 (hdeclares.imp_right And.left)
    | false => exact follows_exec bound depth no hs.2.2 hn.2.2 (hdeclares.imp_right And.right)
  | loop c body =>
    rw [Stmt.tokens, List.forall_mem_append] at hs
    rw [Stmt.names, List.forall_mem_append] at hn
    rw [Stmt.relabel, Stack.exec, Stack.exec]
    exact follows_whileTrue (follows_onScopes (evalFollows_eval c hs.1 hn.1))
      (follows_exec bound depth body hs.2 hn.2 hdeclares) bound

theorem follows_execEach (bound depth : Nat) (ss : List Stmt)
    (hs : ∀ t ∈ Stmt.tokensOf ss, C.Allowed t) (hn : ∀ t ∈ Stmt.namesOf ss, C.Named t)
    (hdeclares : C.DeclaresAt depth) :
    C.Follows depth (Stack.execEach bound ss)
      (Stack.execEach bound (Stmt.relabelEach C.label ss)) := by
  cases ss with
  | nil =>
    rw [Stmt.relabelEach, Stack.execEach]
    exact follows_pure ()
  | cons s ss =>
    rw [Stmt.tokensOf, List.forall_mem_append] at hs
    rw [Stmt.namesOf, List.forall_mem_append] at hn
    rw [Stmt.relabelEach, Stack.execEach, Stack.execEach]
    exact (follows_exec bound depth s hs.1 hn.1 (.inl hdeclares)).bind fun _ =>
      follows_execEach bound depth ss hs.2 hn.2 hdeclares

end

end Correspondence

end Lox
