import Lox.Proofs.Stack.Correspondence
import Lox.Proofs.Token.Lines

/-!
# Programs one after the other on a stack

A program that stands further down runs as it would run alone: it prints the same and leaves the
same scopes, and its runtime errors have the same messages on later lines (`further`).  So running
one program and then another is running both as one program (`interpret_append_of_ok`), as long as
the sink does not refuse to be flushed in between.
-/

namespace Lox

/-- The sink takes everything. -/
structure Sink.Reliable (sink : Sink) : Prop where
  limit_eq : sink.limit = none
  failFlush_eq : sink.failFlush = false

namespace Sink.Reliable

variable {sink : Sink}

theorem write_eq (h : sink.Reliable) (bytes : ByteArray) : Sink.write bytes sink =
    .ok () { sink with held := sink.held ++ bytes } := by
  obtain ⟨held, limit, failFlush, flushes⟩ := sink
  obtain rfl : limit = none := h.limit_eq
  rfl

theorem flush_eq (h : sink.Reliable) :
    Sink.flush sink = .ok () { sink with flushes := sink.flushes + 1 } := by
  obtain ⟨held, limit, failFlush, flushes⟩ := sink
  obtain rfl : failFlush = false := h.failFlush_eq
  rfl

end Sink.Reliable

namespace Stack

/-! ### Further down -/

/-- A program and the same program `n` lines further down, on stacks with the same scopes.  How
often the sinks were flushed does not matter. -/
def further (n : Nat) : Correspondence :=
  { Correspondence.same with
    label := Token.later (Int32.ofNat n)
    Allowed := fun t => (t.later (Int32.ofNat n)).line.toInt = t.line.toInt + n
    Sinks := fun sink sink' => sink.held = sink'.held ∧ sink.Reliable ∧ sink'.Reliable
    Errors := fun e e' => e'.message = e.message ∧ e'.line.toInt = e.line.toInt + n
    kind_label := fun _ => rfl
    fault := fun _ _ ht => ⟨rfl, ht⟩
    write := fun bytes h => by
      obtain ⟨hheld, hr, hr'⟩ := h
      rw [hr.write_eq, hr'.write_eq]
      exact .ok rfl ⟨congrArg (· ++ bytes) hheld, ⟨hr.limit_eq, hr.failFlush_eq⟩,
        ⟨hr'.limit_eq, hr'.failFlush_eq⟩⟩ }

theorem further_flush {n : Nat} (sink sink' : Sink) (h : (further n).Sinks sink sink') :
    Lockstep Eq Eq (further n).Sinks (Sink.flush sink) (Sink.flush sink') := by
  obtain ⟨hheld, hr, hr'⟩ := h
  rw [hr.flush_eq, hr'.flush_eq]
  exact .ok rfl ⟨hheld, ⟨hr.limit_eq, hr.failFlush_eq⟩, ⟨hr'.limit_eq, hr'.failFlush_eq⟩⟩

/-- **Further down a program runs as it does alone.** -/
theorem further_follows_interpret {n : Nat} (bound : Nat) {ss : List Stmt}
    (hs : ∀ t ∈ Stmt.tokensOf ss, (further n).Allowed t) :
    (further n).Follows 1 (interpret bound ss)
      (interpret bound (Stmt.relabelEach (Token.later (Int32.ofNat n)) ss)) :=
  ((further n).follows_execEach bound 1 ss hs (fun _ _ => trivial)
    Correspondence.declaresAt_succ).bind fun _ => Correspondence.follows_onSink further_flush

/-! ### A reliable sink stays reliable -/

theorem further_zero_stacks {t : Stack} (h : t.sink.Reliable) : (further 0).Stacks 1 t t :=
  ⟨rfl, rfl, h, h⟩

theorem further_zero_follows_execEach (bound : Nat) (ss : List Stmt) :
    (further 0).Follows 1 (execEach bound ss) (execEach bound ss) := by
  have hlater : Token.later (Int32.ofNat 0) = id := by
    funext t
    exact congrArg (Token.mk t.kind t.lexeme) (Int32.add_zero t.line)
  have hline : ∀ t ∈ Stmt.tokensOf ss, (further 0).Allowed t := by
    intro t _
    show (Token.later (Int32.ofNat 0) t).line.toInt = t.line.toInt + (0 : Nat)
    rw [hlater]
    exact (Int.add_zero _).symm
  have h := (further 0).follows_execEach bound 1 ss hline (fun _ _ => trivial)
    Correspondence.declaresAt_succ
  rw [show (further 0).label = id from hlater, Stmt.relabelEach_id] at h
  exact h

theorem reliable_of_ok {x : Run Unit} (hx : (further 0).Follows 1 x x) {t t' : Stack}
    (h : t.sink.Reliable) (hrun : x t = .ok () t') : t'.sink.Reliable := by
  obtain ⟨_, _, -, -, hst⟩ := (hx t t (further_zero_stacks h)).exists_of_ok hrun
  exact hst.2.2.1

theorem further_zero_follows_interpret (bound : Nat) (ss : List Stmt) :
    (further 0).Follows 1 (interpret bound ss) (interpret bound ss) :=
  (further_zero_follows_execEach bound ss).bind fun _ => Correspondence.follows_onSink further_flush

/-! ### One program after the other -/

theorem execEach_append (bound : Nat) (ss ss' : List Stmt) : execEach bound (ss ++ ss') = (do
    execEach bound ss
    execEach bound ss') := by
  induction ss with
  | nil =>
    rw [List.nil_append, execEach]
    exact (pure_bind _ _).symm
  | cons s ss ih => rw [List.cons_append, execEach, execEach, ih, bind_assoc]

section

variable {n bound : Nat} {ss ss' : List Stmt} {t t₁ : Stack}

/-- What comes after a program that stopped early is not run. -/
theorem interpret_append_of_error {e : Stop} (ht : t.sink.Reliable)
    (h : interpret bound ss t = .error e t₁) : interpret bound (ss ++ ss') t = .error e t₁ := by
  unfold interpret at h ⊢
  rw [execEach_append, bind_assoc]
  cases hrun : execEach bound ss t with
  | ok u t₂ =>
    have hreliable := reliable_of_ok (further_zero_follows_execEach bound ss) ht hrun
    rw [bind_of_ok _ hrun, onSink, hreliable.flush_eq] at h
    cases h
  | error e t₂ =>
    rw [bind_of_error _ hrun] at h
    rw [bind_of_error _ hrun, h]

/-- **A program after one that was run to its end runs as it does alone.** -/
theorem interpret_append_of_ok (ht : t.sink.Reliable)
    (hs : ∀ t ∈ Stmt.tokensOf ss', (further n).Allowed t) (h : interpret bound ss t = .ok () t₁) :
    Lockstep Eq (further n).Stops ((further n).Stacks 1) (interpret bound ss' t₁)
      (interpret bound (ss ++ Stmt.relabelEach (Token.later (Int32.ofNat n)) ss') t) := by
  have hjoined : interpret bound (ss ++ Stmt.relabelEach (Token.later (Int32.ofNat n)) ss') = (do
      execEach bound ss
      interpret bound (Stmt.relabelEach (Token.later (Int32.ofNat n)) ss')) := by
    unfold interpret
    rw [execEach_append, bind_assoc]
  rw [hjoined]
  unfold interpret at h
  cases hrun : execEach bound ss t with
  | ok u t₂ =>
    have hreliable := reliable_of_ok (further_zero_follows_execEach bound ss) ht hrun
    rw [bind_of_ok _ hrun] at h ⊢
    refine further_follows_interpret bound hs t₁ t₂ ?_
    -- The two stacks differ in one flush.
    rw [onSink, hreliable.flush_eq] at h
    cases h
    exact ⟨rfl, rfl, ⟨hreliable.limit_eq, hreliable.failFlush_eq⟩, hreliable⟩
  | error e t₂ =>
    rw [bind_of_error _ hrun] at h
    cases h

end

end Stack

end Lox
