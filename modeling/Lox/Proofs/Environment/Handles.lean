import Lox.Evaluation
import Lox.Proofs.Environment.Aliasing
import Lox.Proofs.Lockstep
import Lox.Proofs.SharedList.Counts

/-!
# Environments in use

Environments are in use under names: they are made, as the first one or as a child or another handle
of one that is there, they are dropped, and variables are defined and assigned in them.  After every
history of such actions an environment has a first scope, so a definition always finds a place, and
an environment keeps its chain of scopes for as long as no action makes or drops it, whatever
happens to the others, as every shared list does (`Sound.changes_apply`).  Which environments see
what is written in one of them is then a matter of their chains alone (`exact_aliasing`).
-/

namespace Lox

open SharedList SharedList.Store

/-- Environments in use, by name. -/
abbrev Environments := SharedList.Shelf Scope

namespace Environments

/-- What is done with the environments in use. -/
inductive Action where
  | create (e : String)
  | child (e parent : String)
  | clone (e original : String)
  | drop (e : String)
  | define (e : String) (name : String) (v : Value)
  | assign (e : String) (t : Token) (v : Value)

/-- The name under which an environment is made or dropped. -/
def Action.binds? : Action → Option String
  | .create e | .child e _ | .clone e _ | .drop e => some e
  | .define .. | .assign .. => none

/-- The environments after an action. One on a name that is not in use does nothing. -/
def apply (s : Environments) : Action → Environments
  | .create e => s.push e none {}
  | .child e parent => match s.list? parent with
    | some env => s.push e env {}
    | none => s
  | .clone e original => match s.list? original with
    | some env => s.clone e env
    | none => s
  | .drop e => s.drop e
  | .define e name v => match s.list? e with
    | some env => ⟨Scopes.define s.store env name v, s.lists⟩
    | none => s
  | .assign e t v => match s.list? e with
    | some env => ⟨endOf (Eval.assign env t v s.store), s.lists⟩
    | none => s

/-- The environments after actions. -/
def run (s : Environments) (actions : List Action) : Environments := actions.foldl apply s

/-! ### Reachable states -/

/-- The counts of the scopes are right, and no environment in use is without scopes. -/
structure Sound (s : Environments) : Prop where
  counted : s.Counted
  nonempty : ∀ {e env}, s.list? e = some env → ∃ a, env = some a

variable {s : Environments} {e : String} {env : Environment}

theorem Sound.exists_cell (h : Sound s) (he : s.list? e = some env) :
    ∃ a c, env = some a ∧ s.store.cell? a = some c := by
  obtain ⟨a, rfl⟩ := h.nonempty he
  obtain ⟨c, hc⟩ := exists_cell_of_pos (h.counted.pos he a rfl)
  exact ⟨a, c, rfl, hc⟩

theorem Sound.one_le_depth (h : Sound s) (he : s.list? e = some env) :
    1 ≤ Scopes.depth s.store env := by
  obtain ⟨a, c, rfl, hc⟩ := h.exists_cell he
  rw [Scopes.depth, length, addresses_some _ hc]
  exact Nat.le_add_left 1 _

theorem sound_empty : Sound {} := by
  refine ⟨Shelf.counted_empty, fun {e env} he => ?_⟩
  have hnone : ({} : Environments).list? e = none := Std.TreeMap.getElem?_emptyc
  cases hnone.symm.trans he

theorem Sound.frame (h : Sound s) {as : List Nat} {store : Scopes} (hf : Frame as s.store store) :
    Sound ⟨store, s.lists⟩ :=
  ⟨Store.Counted.frame h.counted hf, h.nonempty⟩

theorem frame_assign (env : Environment) (t : Token) (v : Value) (store : Scopes) :
    Frame (store.addresses env) store (endOf (Eval.assign env t v store)) := by
  obtain ⟨store', ⟨l, -, hassign, hm⟩ | ⟨-, hassign, hm⟩⟩ :=
    Scopes.mirrors_assign store env t.lexeme v
  · rw [Eval.assign, hassign]
    exact hm.frame
  · rw [Eval.assign, hassign]
    exact hm.frame

theorem Sound.frame_define (h : Sound s) (he : s.list? e = some env) (name : String) (v : Value) :
    Frame (s.store.addresses env) s.store (Scopes.define s.store env name v) := by
  obtain ⟨a, c, rfl, hc⟩ := h.exists_cell he
  exact (Scopes.mirrors_define ⟨a, c, rfl, hc, Store.Counted.pos h.counted hc⟩ name v).frame

theorem Sound.push (h : Sound s) (hl : ∀ a, env = some a → 0 < s.store.holdersAt a) (e : String) :
    Sound (s.push e env {}) := by
  refine ⟨h.counted.push hl e {}, fun {e' env'} he' => ?_⟩
  rw [Shelf.list?_push] at he'
  split at he'
  · exact ⟨_, (Option.some.inj he').symm⟩
  · exact h.nonempty he'

/-- **Every action keeps the state sound.** -/
theorem Sound.apply (h : Sound s) (a : Action) : Sound (s.apply a) := by
  cases a with
  | create e => exact h.push (by rintro a ⟨⟩) e
  | child e parent =>
    rw [Environments.apply]
    cases hp : s.list? parent with
    | none => exact h
    | some env => exact h.push (h.counted.pos hp) e
  | clone e original =>
    rw [Environments.apply]
    cases ho : s.list? original with
    | none => exact h
    | some env =>
      refine ⟨h.counted.clone (h.counted.pos ho) e, fun {e' env'} he' => ?_⟩
      rw [Shelf.list?_clone] at he'
      split at he'
      · exact h.nonempty (ho.trans he')
      · exact h.nonempty he'
  | drop e =>
    refine ⟨h.counted.drop e, fun {e' env'} he' => ?_⟩
    rw [Environments.apply, Shelf.list?_drop] at he'
    split at he'
    · cases he'
    · exact h.nonempty he'
  | define e name v =>
    rw [Environments.apply]
    cases he : s.list? e with
    | none => exact h
    | some env => exact h.frame (h.frame_define he name v)
  | assign e t v =>
    rw [Environments.apply]
    cases he : s.list? e with
    | none => exact h
    | some env => exact h.frame (frame_assign env t v s.store)

theorem Sound.run (h : Sound s) (actions : List Action) : Sound (s.run actions) := by
  induction actions generalizing s with
  | nil => exact h
  | cons a actions ih => exact ih (h.apply a)

/-! ### Chains that stay -/

/-- **What an action may do** to the environments under other names. -/
theorem Sound.changes_apply (h : Sound s) (a : Action) : Shelf.Changes s (s.apply a) a.binds? := by
  have hsame : ∀ e, Shelf.Changes s s (some e) := fun e => .binds fun he _ => ⟨he, rfl, rfl⟩
  cases a with
  | create e => exact .binds fun he' hne => h.counted.keeps_push (by rintro a ⟨⟩) {} he' hne
  | child e parent =>
    rw [Environments.apply]
    cases hp : s.list? parent with
    | none => exact hsame e
    | some env => exact .binds fun he' hne => h.counted.keeps_push (h.counted.pos hp) {} he' hne
  | clone e original =>
    rw [Environments.apply]
    cases ho : s.list? original with
    | none => exact hsame e
    | some env => exact .binds fun he' hne => h.counted.keeps_clone (h.counted.pos ho) he' hne
  | drop e => exact .binds fun he' hne => h.counted.keeps_drop he' hne
  | define e name v =>
    rw [Environments.apply]
    cases he : s.list? e with
    | none => exact .writes rfl (.refl [] _)
    | some env => exact .writes rfl (h.frame_define he name v)
  | assign e t v =>
    rw [Environments.apply]
    cases he : s.list? e with
    | none => exact .writes rfl (.refl [] _)
    | some env => exact .writes rfl (frame_assign env t v s.store)

/-! ### Reading and writing -/

theorem lookup_eq_ok_iff {t : Token} {v : Value} {store : Scopes} :
    Eval.lookup env t store = .ok v store ↔
      ∃ a, store.Sees env t.lexeme a ∧ store.bound? a t.lexeme = some v := by
  rw [← Scopes.lookup?_eq_some_iff, Eval.lookup]
  cases store.lookup? env t.lexeme with
  | none => simp
  | some w => simp

theorem lookup_eq_error_iff {t : Token} {store : Scopes} :
    Eval.lookup env t store = .error ⟨.undefinedVariable, t⟩ store ↔
      ∀ a ∈ store.addresses env, store.bound? a t.lexeme = none := by
  rw [← Scopes.lookup?_eq_none_iff, Eval.lookup]
  cases store.lookup? env t.lexeme with
  | none => simp
  | some w => simp

theorem assign_of_sees {t : Token} {a : Nat} {store : Scopes} (v : Value)
    (hsees : store.Sees env t.lexeme a) (hbound : (store.bound? a t.lexeme).isSome) :
    ∃ store', Eval.assign env t v store = .ok () store' ∧
      Scopes.Writes store store' a t.lexeme v := by
  rcases Scopes.assign_cases store env t.lexeme v with
    ⟨b, store', hb, hbbound, hassign, hwrites⟩ | ⟨hnone, -⟩
  · have hab : b = a :=
      Option.some.inj ((hb.find?_eq hbbound).symm.trans (hsees.find?_eq hbound))
    exact ⟨store', by rw [Eval.assign, hassign], hab ▸ hwrites⟩
  · obtain ⟨w, hw⟩ := Option.isSome_iff_exists.mp hbound
    rw [Scopes.lookup?_eq_some_iff.mpr ⟨a, hsees, hw⟩] at hnone
    cases hnone

/-- **Assigning fails where looking up fails,** and changes no value then. -/
theorem assign_of_lookup?_eq_none {t : Token} {store : Scopes} (v : Value)
    (hnone : store.lookup? env t.lexeme = none) :
    ∃ store', Eval.assign env t v store = .error ⟨.undefinedVariable, t⟩ store' ∧
      ∀ env' y, Scopes.lookup? store' env' y = store.lookup? env' y := by
  rcases Scopes.assign_cases store env t.lexeme v with
    ⟨b, store', hb, hbbound, -, -⟩ | ⟨-, store', hassign, hsame⟩
  · obtain ⟨w, hw⟩ := Option.isSome_iff_exists.mp hbbound
    rw [Scopes.lookup?_eq_some_iff.mpr ⟨b, hb, hw⟩] at hnone
    cases hnone
  · exact ⟨store', by rw [Eval.assign, hassign], hsame⟩

/-- **Making environments.**  A new scope, which was not there before, comes before the scopes of the
parent. -/
def NewScope (env : Environment) (e : String) (s s' : Environments) : Prop :=
  ∃ n, s.store.cell? n = none ∧ s'.list? e = some (some n) ∧
    s'.store.addresses (some n) = n :: s.store.addresses env ∧
    s'.store.toList (some n) = {} :: s.store.toList env

theorem Sound.newScope (h : Sound s) (hl : ∀ a, env = some a → 0 < s.store.holdersAt a)
    (e : String) : NewScope env e s (s.push e env {}) :=
  ⟨s.store.cells.size, s.store.cell?_size, h.counted.toList_push_new hl e {}⟩

/-- **Exact aliasing.**  After every history:

* an environment in use has a scope, and further actions that do not make or drop it leave it the
  chain of scopes that it has, and with it its depth; if they only make and drop others, its scopes
  are the same too;
* a new environment has one new scope, a child has one before those of its parent, and a clone has
  the scopes of the original;
* looking up gives the value in the nearest scope that has the variable, and fails where none has;
* assigning writes in that scope: the value shows in the environments that see the scope and in no
  others; where looking up fails, assigning fails and changes no value;
* defining writes in the first scope, which the environment itself sees, in the same way. -/
theorem exact_aliasing (history : List Action) :
    let s := run {} history
    (∀ g env, s.list? g = some env → 1 ≤ Scopes.depth s.store env ∧
      ∀ further : List Action,
        ((∀ a ∈ further, a.binds? ≠ some g) → Shelf.SameCells g env s (s.run further) ∧
          Scopes.depth (s.run further).store env = Scopes.depth s.store env) ∧
        ((∀ a ∈ further, ∃ other, a.binds? = some other ∧ g ≠ other) →
          (s.run further).store.toList env = s.store.toList env)) ∧
    ((∀ e, NewScope none e s (s.apply (.create e))) ∧
      ∀ e g env, s.list? g = some env → NewScope env e s (s.apply (.child e g)) ∧
        Shelf.Keeps e env s (s.apply (.clone e g))) ∧
    (∀ e env t, s.list? e = some env →
      (∀ v, Eval.lookup env t s.store = .ok v s.store ↔
        ∃ a, Scopes.Sees s.store env t.lexeme a ∧ Scopes.bound? s.store a t.lexeme = some v) ∧
      (Eval.lookup env t s.store = .error ⟨.undefinedVariable, t⟩ s.store ↔
        ∀ a ∈ s.store.addresses env, Scopes.bound? s.store a t.lexeme = none) ∧
      RuntimeError.message ⟨.undefinedVariable, t⟩ = "Undefined variable '" ++ t.lexeme ++ "'.") ∧
    (∀ e env t v, s.list? e = some env →
      let s' := s.apply (.assign e t v)
      (∀ a, Scopes.Sees s.store env t.lexeme a → (Scopes.bound? s.store a t.lexeme).isSome →
        Eval.assign env t v s.store = .ok () s'.store ∧
          Scopes.Shows s.store s'.store a t.lexeme v) ∧
      (Scopes.lookup? s.store env t.lexeme = none →
        Eval.assign env t v s.store = .error ⟨.undefinedVariable, t⟩ s'.store ∧
          ∀ env' y, Scopes.lookup? s'.store env' y = Scopes.lookup? s.store env' y)) ∧
    (∀ e env x v, s.list? e = some env →
      let s' := s.apply (.define e x v)
      ∃ a, (s.store.addresses env).head? = some a ∧ Scopes.lookup? s'.store env x = some v ∧
        Scopes.Shows s.store s'.store a x v) := by
  intro s
  have h : Sound s := sound_empty.run history
  refine ⟨fun g env hg => ⟨h.one_le_depth hg, fun further => ⟨fun hfurther => ?_, fun hfurther => ?_⟩⟩,
    ⟨fun e => h.newScope (by rintro a ⟨⟩) e, fun e g env hg => ?_⟩,
    fun e env t _ => ⟨fun v => lookup_eq_ok_iff, lookup_eq_error_iff, rfl⟩,
    fun e env t v he => ⟨fun a hsees hbound => ?_, fun hnone => ?_⟩, fun e env x v he => ?_⟩
  · have hchain := Shelf.sameCells_foldl (fun a h => h.apply a) (fun a h => h.changes_apply a) h hg
      further hfurther
    exact ⟨hchain, congrArg List.length hchain.addresses⟩
  · exact (Shelf.keeps_foldl (fun a h => h.apply a) (fun a h => h.changes_apply a) h hg further
      hfurther).toList
  · have hpos := h.counted.pos hg
    simp only [apply, hg]
    exact ⟨h.newScope hpos e, h.counted.keeps_clone_new hpos e⟩
  · obtain ⟨store', hassign, hwrites⟩ := assign_of_sees v hsees hbound
    simp only [apply, he, hassign, endOf, true_and]
    exact hwrites.shows
  · obtain ⟨store', hassign, hsame⟩ := assign_of_lookup?_eq_none v hnone
    simp only [apply, he, hassign, endOf, true_and]
    exact hsame
  · obtain ⟨a, c, rfl, hc⟩ := h.exists_cell he
    have hshows := (Scopes.writes_define hc x v).shows
    have hsees : Scopes.Sees s.store (some a) x a :=
      ⟨[], _, addresses_some _ hc, List.forall_mem_nil _⟩
    simp only [apply, he]
    exact ⟨a, by rw [addresses_some _ hc]; rfl, hshows.seen _ hsees, hshows⟩

/-- A child of a child outlives its parents. -/
def orphaning : List Action :=
  [.create "a", .define "a" "x" .nil, .clone "b" "a", .child "c" "a", .child "d" "c", .child "e" "a",
    .define "e" "x" .nil, .drop "a", .drop "c"]

/-- The orphan keeps its depth when more is dropped, and what it assigns shows in a clone of the
outermost environment, but not in a child of it that has a variable of that name itself. -/
theorem exact_aliasing_orphan :
    let s := run {} orphaning
    let s' := s.apply (.assign "d" (.identifier "x" 1) (.bool true))
    s.list? "d" = some (some 2) ∧ 1 ≤ Scopes.depth s.store (some 2) ∧
      Scopes.depth (s.run [.drop "b", .create "c"]).store (some 2) = Scopes.depth s.store (some 2) ∧
      Scopes.lookup? s'.store (some 0) "x" = some (.bool true) ∧
      Scopes.lookup? s'.store (some 3) "x" = Scopes.lookup? s.store (some 3) "x" := by
  intro s s'
  obtain ⟨hd, hsees, hbound, hclone, hchild⟩ : s.list? "d" = some (some 2) ∧
      (s.store.addresses (some 2) = [2, 1, 0] ∧
        ∀ b ∈ [2, 1], Scopes.bound? s.store b "x" = none) ∧
      (Scopes.bound? s.store 0 "x").isSome ∧ s.store.addresses (some 0) = [0] ∧
      (s.store.addresses (some 3)).find? (fun b => (Scopes.bound? s.store b "x").isSome) = some 3 :=
    show (run {} orphaning).list? "d" = _ ∧ _ by decide +kernel
  obtain ⟨hchains, -, -, hassign, -⟩ := exact_aliasing orphaning
  obtain ⟨hdepth, hfurther⟩ := hchains "d" (some 2) hd
  obtain ⟨-, hshows⟩ := (hassign "d" (some 2) (.identifier "x" 1) (.bool true) hd).1 0
    ⟨[2, 1], [], hsees.1, hsees.2⟩ hbound
  refine ⟨hd, hdepth, ((hfurther _).1 (by decide)).2,
    hshows.seen _ ⟨[], [], hclone, List.forall_mem_nil _⟩, hshows.unseen _ fun hseen => ?_⟩
  have hfind := hseen.find?_eq hbound
  exact absurd (hchild.symm.trans hfind) (by decide)

end Environments

end Lox
