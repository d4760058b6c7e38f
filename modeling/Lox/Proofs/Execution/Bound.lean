import Lox.Proofs.Lockstep
import Lox.Execution

/-!
# The bound on the rounds of loops

The bound on the rounds of every loop is there to make execution total.  What a computation does
without running into its bound it does under every larger bound (`persists_interpret`), so two
bounds under which a program ends make no difference (`eq_of_persists`).
-/

namespace Lox

variable {σ α β : Type}

/-- Where the first computation does not run into its bound, the second one does the same. -/
def Persists (x y : EStateM Stop σ α) : Prop :=
  ∀ s, (∃ s', x s = .error .exhausted s') ∨ y s = x s

namespace Persists

theorem refl (x : EStateM Stop σ α) : Persists x x := fun _ => .inr rfl

/-- **Persistence is kept by one step after the other.** -/
theorem bind {x y : EStateM Stop σ α} {f g : α → EStateM Stop σ β} (hxy : Persists x y)
    (hfg : ∀ a, Persists (f a) (g a)) : Persists (x >>= f) (y >>= g) := by
  intro s
  obtain ⟨s', hx⟩ | hy := hxy s
  · exact .inl ⟨s', bind_of_error f hx⟩
  cases hx : x s with
  | ok a s' =>
    rw [bind_of_ok f hx, bind_of_ok g (hy.trans hx)]
    exact hfg a s'
  | error e s' =>
    rw [bind_of_error f hx, bind_of_error g (hy.trans hx)]
    exact .inr rfl

theorem eq_of_ne {x y : EStateM Stop σ α} (h : Persists x y) {s : σ}
    {r : EStateM.Result Stop σ α} (hx : x s = r) (hr : ∀ s', r ≠ .error .exhausted s') :
    y s = r := by
  obtain ⟨s', he⟩ | hy := h s
  · exact absurd (hx.symm.trans he) (hr s')
  · exact hy.trans hx

end Persists

/-- **Two bounds under which a computation ends make no difference.** -/
theorem eq_of_persists {x : Nat → EStateM Stop σ α}
    (hx : ∀ {bound bound' : Nat}, bound ≤ bound' → Persists (x bound) (x bound'))
    {bound bound' : Nat} {s : σ} {r r' : EStateM.Result Stop σ α} (h : x bound s = r)
    (h' : x bound' s = r') (hr : ∀ s', r ≠ .error .exhausted s')
    (hr' : ∀ s', r' ≠ .error .exhausted s') : r = r' :=
  ((hx (Nat.le_max_left bound bound')).eq_of_ne h hr).symm.trans
    ((hx (Nat.le_max_right bound bound')).eq_of_ne h' hr')

namespace Run

variable {env : Environment}

theorem persists_holding {x y : Run α} (h : Persists x y) :
    Persists (holding env x) (holding env y) := by
  intro m
  unfold holding
  obtain ⟨⟨scopes, sink, events⟩, hx⟩ | hy := h m
  · rw [hx]
    exact .inl ⟨_, rfl⟩
  · rw [hy]
    exact .inr rfl

theorem persists_inChild {x y : Environment → Run α} (h : ∀ child, Persists (x child) (y child)) :
    Persists (inChild env x) (inChild env y) := by
  rintro ⟨scopes, sink, events⟩
  exact persists_holding (h _) _

theorem persists_whileTrue {condition : Run Value} {body body' : Run Unit}
    (hbody : Persists body body') {bound bound' : Nat} (hle : bound ≤ bound') :
    Persists (whileTrue condition body bound) (whileTrue condition body' bound') := by
  induction bound generalizing bound' with
  | zero => exact fun m => .inl ⟨m, rfl⟩
  | succ bound ih =>
    obtain _ | bound' := bound'
    · exact absurd hle (Nat.not_succ_le_zero bound)
    refine (Persists.refl condition).bind fun v => ?_
    cases v.isTruthy with
    | true => exact hbody.bind fun _ => ih (Nat.le_of_succ_le_succ hle)
    | false => exact .refl _

end Run

section

variable {bound bound' : Nat}

mutual

/-- **A statement that ends under a bound ends alike under every larger one.** -/
theorem Stmt.persists_exec (hle : bound ≤ bound') (s : Stmt) (env : Environment) :
    Persists (s.exec bound env) (s.exec bound' env) := by
  cases s with
  | block body =>
    rw [Stmt.exec, Stmt.exec]
    exact Run.persists_inChild fun child =>
      (Persists.refl _).bind fun _ => Stmt.persists_execEach hle body child
  | expr e =>
    rw [Stmt.exec, Stmt.exec]
    exact .refl _
  | print e =>
    rw [Stmt.exec, Stmt.exec]
    exact .refl _
  | declare t initial =>
    cases initial with
    | none =>
      rw [Stmt.exec, Stmt.exec]
      exact .refl _
    | some e =>
      rw [Stmt.exec, Stmt.exec]
      exact .refl _
  | ifThen c yes =>
    rw [Stmt.exec, Stmt.exec]
    refine (Persists.refl _).bind fun v => ?_
    cases v.isTruthy with
    | true => exact Stmt.persists_exec hle yes env
    | false => exact .refl _
  | ifElse c yes no =>
    rw [Stmt.exec, Stmt.exec]
    refine (Persists.refl _).bind fun v => ?_
    cases v.isTruthy with
    | true => exact Stmt.persists_exec hle yes env
    | false => exact Stmt.persists_exec hle no env
  | loop c body =>
    rw [Stmt.exec, Stmt.exec]
    exact Run.persists_whileTrue (Stmt.persists_exec hle body env) hle

theorem Stmt.persists_execEach (hle : bound ≤ bound') (ss : List Stmt) (env : Environment) :
    Persists (Stmt.execEach bound ss env) (Stmt.execEach bound' ss env) := by
  cases ss with
  | nil =>
    rw [Stmt.execEach, Stmt.execEach]
    exact .refl _
  | cons s ss =>
    rw [Stmt.execEach, Stmt.execEach]
    exact (Stmt.persists_exec hle s env).bind fun _ => Stmt.persists_execEach hle ss env

end

theorem persists_interpret (hle : bound ≤ bound') (globals : Environment) (program : List Stmt) :
    Persists (interpret bound globals program) (interpret bound' globals program) :=
  (Persists.refl _).bind fun _ => Run.persists_holding
    ((Stmt.persists_execEach hle program globals).bind fun _ => .refl _)

end

end Lox
