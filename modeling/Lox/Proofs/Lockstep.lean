/-!
# Two computations in lockstep

Two computations that may stop early run in lockstep when they end the same way: both with a result,
or both with an error, the results, the errors and the last states each in a given relation.
Lockstep is kept by one step after the other, so a relation between states that every step keeps
holds at the end of the run, however it ends.  The same goes for one computation and a relation
between its first and its last state (`Stays`).
-/

namespace Lox

variable {ε δ σ τ α β α' β' : Type}

theorem bind_of_ok {x : EStateM ε σ α} {s s' : σ} {a : α} (f : α → EStateM ε σ β)
    (h : x s = .ok a s') : (x >>= f) s = f a s' := by
  show EStateM.bind x f s = f a s'
  unfold EStateM.bind
  rw [h]

theorem bind_of_error {x : EStateM ε σ α} {s s' : σ} {e : ε} (f : α → EStateM ε σ β)
    (h : x s = .error e s') : (x >>= f) s = .error e s' := by
  show EStateM.bind x f s = .error e s'
  unfold EStateM.bind
  rw [h]

/-! ### The ends of one computation -/

theorem exists_of_bind_ok {x : EStateM ε σ α} {f : α → EStateM ε σ β} {s s' : σ} {b : β}
    (h : (x >>= f) s = .ok b s') : ∃ a t, x s = .ok a t ∧ f a t = .ok b s' := by
  cases hx : x s with
  | ok a t =>
    rw [bind_of_ok f hx] at h
    exact ⟨a, t, rfl, h⟩
  | error e t =>
    rw [bind_of_error f hx] at h
    cases h

/-- Whether a computation ends well, in a state with a property, can be seen by running it. -/
instance decidableEndsWell {r : EStateM.Result ε σ Unit} {P : σ → Prop} [DecidablePred P] :
    Decidable (∃ s, r = .ok () s ∧ P s) :=
  match r with
  | .ok () s => decidable_of_iff (P s) ⟨fun h => ⟨s, rfl, h⟩, fun ⟨_, hs, h⟩ => by cases hs; exact h⟩
  | .error _ _ => .isFalse nofun

/-- The state that a computation ends with, well or not. -/
def endOf : EStateM.Result ε σ α → σ
  | .ok _ s => s
  | .error _ s => s

/-- Changes the last state of a run. -/
def mapState (f : σ → τ) : EStateM.Result ε σ α → EStateM.Result ε τ α
  | .ok a s => .ok a (f s)
  | .error e s => .error e (f s)

@[simp]
theorem endOf_mapState (f : σ → τ) (r : EStateM.Result ε σ α) : endOf (mapState f r) = f (endOf r) := by
  cases r with
  | ok a s => rfl
  | error e s => rfl

@[simp]
theorem mapState_mapState {υ : Type} (f : σ → τ) (g : τ → υ) (r : EStateM.Result ε σ α) :
    mapState g (mapState f r) = mapState (fun s => g (f s)) r := by
  cases r with
  | ok a s => rfl
  | error e s => rfl

theorem mapState_eq_const (f : σ → τ) (r : EStateM.Result ε σ α) :
    mapState f r = mapState (fun _ => f (endOf r)) r := by
  cases r with
  | ok a s => rfl
  | error e s => rfl

@[simp]
theorem mapState_const_endOf (r : EStateM.Result ε σ α) : mapState (fun _ => endOf r) r = r := by
  cases r with
  | ok a s => rfl
  | error e s => rfl

/-- However the computation ends, its last state stands in the relation to the first. -/
def Stays (S : σ → σ → Prop) (x : EStateM ε σ α) : Prop := ∀ s, S s (endOf (x s))

theorem Stays.bind {S : σ → σ → Prop} {x : EStateM ε σ α} {f : α → EStateM ε σ β}
    (hx : Stays S x) (hS : ∀ {s t u}, S s t → S t u → S s u) (hf : ∀ a, Stays S (f a)) :
    Stays S (x >>= f) := by
  intro s
  have hs := hx s
  cases h : x s with
  | ok a t =>
    rw [h] at hs
    rw [bind_of_ok f h]
    exact hS hs (hf a t)
  | error e t =>
    rw [h] at hs
    rw [bind_of_error f h]
    exact hs

/-! ### The ends of two computations -/

/-- The two runs ended the same way. -/
inductive Lockstep (V : α → β → Prop) (E : ε → δ → Prop) (S : σ → τ → Prop) :
    EStateM.Result ε σ α → EStateM.Result δ τ β → Prop
  | ok {a : α} {b : β} {s : σ} {t : τ} (value : V a b) (state : S s t) :
      Lockstep V E S (.ok a s) (.ok b t)
  | error {e : ε} {d : δ} {s : σ} {t : τ} (error : E e d) (state : S s t) :
      Lockstep V E S (.error e s) (.error d t)

namespace Lockstep

variable {V : α → β → Prop} {W : α' → β' → Prop} {E : ε → δ → Prop} {S : σ → τ → Prop}

/-- **Lockstep is kept by one step after the other.** -/
theorem bind {x : EStateM ε σ α} {y : EStateM δ τ β} {f : α → EStateM ε σ α'}
    {g : β → EStateM δ τ β'} {s : σ} {t : τ} (hxy : Lockstep V E S (x s) (y t))
    (hfg : ∀ a b s t, V a b → S s t → Lockstep W E S (f a s) (g b t)) :
    Lockstep W E S ((x >>= f) s) ((y >>= g) t) := by
  show Lockstep W E S (EStateM.bind x f s) (EStateM.bind y g t)
  unfold EStateM.bind
  match x s, y t, hxy with
  | _, _, .ok (a := a) (b := b) (s := s) (t := t) hab hst => exact hfg a b s t hab hst
  | _, _, .error hed hst => exact .error hed hst

theorem pure {a : α} {b : β} {s : σ} {t : τ} (hab : V a b) (hst : S s t) :
    Lockstep V E S ((Pure.pure a : EStateM ε σ α) s) ((Pure.pure b : EStateM δ τ β) t) :=
  .ok hab hst

theorem refl {S : σ → σ → Prop} (hS : ∀ s, S s s) (r : EStateM.Result ε σ α) :
    Lockstep Eq Eq S r r := by
  cases r with
  | ok a s => exact .ok rfl (hS s)
  | error e s => exact .error rfl (hS s)

section Inversion

variable {r : EStateM.Result ε σ α} {q : EStateM.Result δ τ β}

theorem exists_of_ok {a : α} {s : σ} (h : Lockstep V E S r q) (hr : r = .ok a s) :
    ∃ b t, q = .ok b t ∧ V a b ∧ S s t := by
  subst hr
  cases h with
  | ok hab hst => exact ⟨_, _, rfl, hab, hst⟩

theorem exists_of_error {e : ε} {s : σ} (h : Lockstep V E S r q) (hr : r = .error e s) :
    ∃ d t, q = .error d t ∧ E e d ∧ S s t := by
  subst hr
  cases h with
  | error hed hst => exact ⟨_, _, rfl, hed, hst⟩

theorem symm (h : Lockstep V E S r q) :
    Lockstep (fun b a => V a b) (fun d e => E e d) (fun t s => S s t) q r := by
  cases h with
  | ok hab hst => exact .ok hab hst
  | error hed hst => exact .error hed hst

end Inversion

/-- However the two end, their last states are in the relation. -/
theorem endOf {r : EStateM.Result ε σ α} {q : EStateM.Result δ τ β} (h : Lockstep V E S r q) :
    S (Lox.endOf r) (Lox.endOf q) := by
  cases h with
  | ok _ hst => exact hst
  | error _ hst => exact hst

theorem mapState_eq {S : σ → τ → Prop} {f : σ → τ} {r : EStateM.Result ε σ α}
    {q : EStateM.Result ε τ α} (h : Lockstep Eq Eq S r q) (hS : ∀ s t, S s t → f s = t) :
    mapState f r = q := by
  cases h with
  | ok hab hst => rw [mapState, hab, hS _ _ hst]
  | error hed hst => rw [mapState, hed, hS _ _ hst]

theorem of_mapState {υ ω : Type} {S : υ → ω → Prop} {f : σ → υ} {g : τ → ω}
    {r : EStateM.Result ε σ α} {q : EStateM.Result δ τ β}
    (h : Lockstep V E S (Lox.mapState f r) (Lox.mapState g q)) :
    Lockstep V E (fun s t => S (f s) (g t)) r q := by
  cases r with
  | ok a s =>
    cases q with
    | ok b t =>
      cases h with
      | ok hab hst => exact .ok hab hst
    | error d t => cases h
  | error e s =>
    cases q with
    | ok b t => cases h
    | error d t =>
      cases h with
      | error hed hst => exact .error hed hst

theorem imp {r : EStateM.Result ε σ α} {q : EStateM.Result δ τ β} {E' : ε → δ → Prop}
    {S' : σ → τ → Prop} (h : Lockstep V E S r q) (hE : ∀ e d, E e d → E' e d)
    (hS : ∀ s t, S s t → S' s t) : Lockstep V E' S' r q := by
  cases h with
  | ok hab hst => exact .ok hab (hS _ _ hst)
  | error hed hst => exact .error (hE _ _ hed) (hS _ _ hst)

theorem mono {r : EStateM.Result ε σ α} {q : EStateM.Result δ τ β} {S' : σ → τ → Prop}
    (h : Lockstep V E S r q) (hS : ∀ s t, S s t → S' s t) : Lockstep V E S' r q :=
  h.imp (fun _ _ => id) hS

end Lockstep

end Lox
