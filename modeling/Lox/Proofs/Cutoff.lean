import Lox.Execution
import Lox.Proofs.Lockstep

/-!
# Runs that are cut off

A computation writes to a sink, one write after the other.  Over a sink that takes everything it
writes all of them; over a sink with a limit it is refused at the write that the limit falls into,
and stops there.  `Tracks x s ws` says this of a computation from a state, with its writes in order:

* without a limit the sink holds all the writes at the end;
* with a limit that they stay within the computation ends as it does without one;
* otherwise it is refused at the write that the limit falls into, with the sink full up to the last
  byte.

What a refused computation leaves apart from the sink is a matter of the setting (`Scene.Left`).
Tracking is kept by one step after the other, where the writes of the second step are those that it
does `after` the first.
-/

namespace Lox

variable {ε σ α β ω : Type}

/-- The list that the result and the last state of a computation give, and nothing if it stops early.
-/
def after (x : EStateM ε σ α) (W : α → σ → List ω) (s : σ) : List ω :=
  match x s with
  | .ok a s => W a s
  | .error _ _ => []

theorem after_of_ok {x : EStateM ε σ α} {s s' : σ} {a : α} (W : α → σ → List ω)
    (h : x s = .ok a s') : after x W s = W a s' := by
  rw [after, h]

theorem after_of_error {x : EStateM ε σ α} {s s' : σ} {e : ε} (W : α → σ → List ω)
    (h : x s = .error e s') : after x W s = [] := by
  rw [after, h]

@[simp]
theorem after_nil (x : EStateM ε σ α) (s : σ) : after x (fun _ _ => ([] : List ω)) s = [] := by
  unfold after
  cases x s with
  | ok a s => rfl
  | error e s => rfl

theorem mem_after {x : EStateM ε σ α} {W : α → σ → List ω} {s : σ} {w : ω} (h : w ∈ after x W s) :
    ∃ a s', x s = .ok a s' ∧ w ∈ W a s' := by
  cases hx : x s with
  | ok a s' =>
    rw [after_of_ok W hx] at h
    exact ⟨a, s', rfl, h⟩
  | error e s' =>
    rw [after_of_error W hx] at h
    cases h

/-- Goes on where a computation has come to its end. -/
def proceed (f : α → EStateM ε σ β) : EStateM.Result ε σ α → EStateM.Result ε σ β
  | .ok a s => f a s
  | .error e s => .error e s

theorem bind_eq_proceed (x : EStateM ε σ α) (f : α → EStateM ε σ β) :
    x >>= f = fun s => proceed f (x s) := by
  funext s
  cases hrun : x s with
  | ok a s₁ => exact bind_of_ok f hrun
  | error e s₁ => exact bind_of_error f hrun

theorem extract_append_of_le {a b : ByteArray} {n : Nat} (h : n ≤ a.size) :
    (a ++ b).extract 0 n = a.extract 0 n := by
  have hempty : b.extract (0 - a.size) (n - a.size) = ByteArray.empty := by
    rw [Nat.sub_eq_zero_of_le h, Nat.zero_sub, ByteArray.extract_same]
  rw [ByteArray.extract_append, hempty, ByteArray.append_empty]

theorem extract_append_of_ge {a b : ByteArray} {n : Nat} (h : a.size ≤ n) :
    (a ++ b).extract 0 n = a ++ b.extract 0 (n - a.size) := by
  have hall : a.extract 0 n = a := by
    rw [← Nat.max_eq_left h, ByteArray.extract_zero_max_size]
  rw [ByteArray.extract_append, hall, Nat.zero_sub]

/-! ### Sinks with a limit -/

namespace Sink

variable {held bytes : ByteArray} {total flushes : Nat} {failFlush : Bool}

/-- What fits is taken. -/
theorem write_of_fits (h : (held ++ bytes).size ≤ total) :
    write bytes ⟨held, some total, failFlush, flushes⟩ =
      .ok () ⟨held ++ bytes, some total, failFlush, flushes⟩ := by
  rw [ByteArray.size_append] at h
  have hroom : bytes.size ≤ total - held.size := by omega
  unfold write
  simp only [if_pos hroom]

/-- **Of what does not fit the first bytes are taken,** and the sink is then full. -/
theorem write_of_not_fits (hle : held.size ≤ total) (h : total < (held ++ bytes).size) :
    write bytes ⟨held, some total, failFlush, flushes⟩ =
      .error .full ⟨(held ++ bytes).extract 0 total, some total, failFlush, flushes⟩ := by
  rw [ByteArray.size_append] at h
  have hroom : ¬bytes.size ≤ total - held.size := by omega
  unfold write
  simp only [if_neg hroom]
  rw [extract_append_of_ge hle]

end Sink

/-! ### Computations and their writes -/

/-- States with a sink, and what is written to it. -/
structure Scene (σ ω : Type) where
  /-- The bytes that the sink holds. -/
  held : σ → ByteArray
  /-- The state, with a sink that takes so many bytes and not more. -/
  limited : Nat → σ → σ
  /-- The bytes of a write. -/
  bytes : ω → ByteArray
  /-- What a computation leaves that started in the first state and was refused at a write. -/
  Left : σ → ω → σ → Prop

namespace Scene

variable (S : Scene σ ω) {x : EStateM Stop σ α} {s : σ} {ws vs : List ω} {w : ω} {total : Nat}

/-- The bytes of several writes. -/
def written (ws : List ω) : ByteArray := ws.foldr (fun w bytes => S.bytes w ++ bytes) ByteArray.empty

@[simp]
theorem written_cons (w : ω) (ws : List ω) : S.written (w :: ws) = S.bytes w ++ S.written ws := rfl

@[simp]
theorem written_append (ws vs : List ω) : S.written (ws ++ vs) = S.written ws ++ S.written vs := by
  induction ws with
  | nil => exact ByteArray.empty_append.symm
  | cons w ws ih => rw [List.cons_append, written_cons, written_cons, ih, ByteArray.append_assoc]

/-- The limit falls into the write `w`. -/
def FallsInto (total : Nat) (held : ByteArray) (ws : List ω) (w : ω) : Prop :=
  ∃ before later, ws = before ++ w :: later ∧ (held ++ S.written before).size ≤ total ∧
    total < (held ++ S.written before ++ S.bytes w).size

variable {S}

theorem FallsInto.mem {held : ByteArray} (h : S.FallsInto total held ws w) : w ∈ ws := by
  obtain ⟨before, later, rfl, -, -⟩ := h
  exact List.mem_append_right _ (List.mem_cons_self ..)

theorem FallsInto.append_right {held : ByteArray} (h : S.FallsInto total held ws w) (vs : List ω) :
    S.FallsInto total held (ws ++ vs) w := by
  obtain ⟨before, later, rfl, hle, hlt⟩ := h
  exact ⟨before, later ++ vs, by rw [List.append_assoc, List.cons_append], hle, hlt⟩

theorem FallsInto.append_left {held : ByteArray}
    (h : S.FallsInto total (held ++ S.written ws) vs w) : S.FallsInto total held (ws ++ vs) w := by
  obtain ⟨before, later, rfl, hle, hlt⟩ := h
  refine ⟨ws ++ before, later, (List.append_assoc ..).symm, ?_, ?_⟩
  · rwa [written_append, ← ByteArray.append_assoc]
  · rwa [written_append, ← ByteArray.append_assoc]

variable (S)

/-- The computation from a state does the writes, as far as the sink takes them. -/
structure Tracks (x : EStateM Stop σ α) (s : σ) (ws : List ω) : Prop where
  held_eq : S.held (endOf (x s)) = S.held s ++ S.written ws
  fits : ∀ total, (S.held s ++ S.written ws).size ≤ total →
    x (S.limited total s) = mapState (S.limited total) (x s)
  refused : ∀ total, (S.held s).size ≤ total → total < (S.held s ++ S.written ws).size →
    ∃ w t, S.FallsInto total (S.held s) ws w ∧ x (S.limited total s) = .error (.refused .full) t ∧
      S.held t = (S.held s ++ S.written ws).extract 0 total ∧ S.Left s w t

variable {S}

/-- **With room for `n` bytes the first `n` bytes are written.** -/
theorem Tracks.held_limited (h : S.Tracks x s ws)
    (hlimited : ∀ total t, S.held (S.limited total t) = S.held t) (n : Nat) :
    S.held (endOf (x (S.limited ((S.held s).size + n) s))) =
      S.held s ++ (S.written ws).extract 0 n := by
  have hsize : (S.held s ++ S.written ws).size = (S.held s).size + (S.written ws).size :=
    ByteArray.size_append
  rcases Nat.lt_or_ge n (S.written ws).size with hlt | hle
  · obtain ⟨w, t, -, hstop, hheld, -⟩ := h.refused _ (Nat.le_add_right _ n)
      (hsize ▸ Nat.add_lt_add_left hlt _)
    rw [hstop]
    refine hheld.trans ((extract_append_of_ge (Nat.le_add_right _ n)).trans ?_)
    rw [Nat.add_sub_cancel_left]
  · rw [h.fits _ (hsize ▸ Nat.add_le_add_left hle _), endOf_mapState, hlimited,
      ← Nat.max_eq_left hle, ByteArray.extract_zero_max_size]
    exact h.held_eq

/-- Only what a computation does from the state, with and without a limit, matters. -/
theorem Tracks.congr {y : EStateM Stop σ α} (h : S.Tracks x s ws) (hs : y s = x s)
    (hlimited : ∀ total, y (S.limited total s) = x (S.limited total s)) : S.Tracks y s ws := by
  refine ⟨by rw [hs]; exact h.held_eq, fun total hfit => ?_, fun total hle hlt => ?_⟩
  · rw [hlimited, hs]
    exact h.fits total hfit
  · rw [hlimited]
    exact h.refused total hle hlt

/-- A computation that writes nothing, and takes no notice of a limit. -/
theorem tracks_nil (hheld : S.held (endOf (x s)) = S.held s)
    (hlimited : ∀ total, x (S.limited total s) = mapState (S.limited total) (x s)) :
    S.Tracks x s [] := by
  have hnil : S.held s ++ S.written [] = S.held s := ByteArray.append_empty
  refine ⟨by rw [hnil, hheld], fun total _ => hlimited total, fun total hle hlt => ?_⟩
  rw [hnil] at hlt
  exact absurd hle (Nat.not_le_of_lt hlt)

/-- **Tracking is kept by going on from the end of a computation,** however it has ended, unless it
was refused. -/
theorem Tracks.goOn {K : EStateM.Result Stop σ α → EStateM.Result Stop σ β}
    (hK : ∀ t, K (.error (.refused .full) t) = .error (.refused .full) t) (hx : S.Tracks x s ws)
    (hrest : S.Tracks (fun s' => K (mapState (fun _ => s') (x s))) (endOf (x s)) vs)
    (hleft : ∀ w ∈ vs, ∀ t, S.Left (endOf (x s)) w t → S.Left s w t) :
    S.Tracks (fun s => K (x s)) s (ws ++ vs) := by
  have hbytes : S.held s ++ S.written (ws ++ vs) = S.held (endOf (x s)) ++ S.written vs := by
    rw [written_append, hx.held_eq, ByteArray.append_assoc]
  -- Within the limit the first part ends as it does without one.
  have hlimited : ∀ total, (S.held (endOf (x s))).size ≤ total → K (x (S.limited total s)) =
      K (mapState (fun _ => S.limited total (endOf (x s))) (x s)) := by
    intro total hle
    rw [hx.held_eq] at hle
    rw [hx.fits total hle, mapState_eq_const]
  refine ⟨?_, fun total hfit => ?_, fun total hle hlt => ?_⟩
  · have hend := hrest.held_eq
    simp only [mapState_const_endOf] at hend
    rw [hbytes]
    exact hend
  · rw [hbytes] at hfit
    have hle : (S.held (endOf (x s))).size ≤ total := by
      rw [ByteArray.size_append] at hfit
      omega
    have hend := hrest.fits total hfit
    simp only [mapState_const_endOf] at hend
    exact (hlimited total hle).trans hend
  · by_cases hle' : (S.held (endOf (x s))).size ≤ total
    · rw [hbytes] at hlt
      obtain ⟨w, t, hfalls, hrun, hheld, hl⟩ := hrest.refused total hle' hlt
      rw [hx.held_eq] at hfalls
      exact ⟨w, t, hfalls.append_left, (hlimited total hle').trans hrun, hbytes ▸ hheld,
        hleft w hfalls.mem t hl⟩
    · -- A limit that falls into the first part stops the whole there.
      rw [hx.held_eq] at hle'
      obtain ⟨w, t, hfalls, hrun, hheld, hl⟩ := hx.refused total hle (Nat.lt_of_not_le hle')
      refine ⟨w, t, hfalls.append_right vs, ?_, ?_, hl⟩
      · rw [hrun, hK]
      · rw [hheld, written_append, ← ByteArray.append_assoc,
          extract_append_of_le (Nat.le_of_not_le hle')]

/-- **Tracking is kept by one step after the other.** -/
theorem Tracks.bind {f : α → EStateM Stop σ β} {V : α → σ → List ω} (hx : S.Tracks x s ws)
    (hf : ∀ a s₁, x s = .ok a s₁ → S.Tracks (f a) s₁ (V a s₁))
    (hleft : ∀ a s₁, x s = .ok a s₁ → ∀ w ∈ V a s₁, ∀ t, S.Left s₁ w t → S.Left s w t) :
    S.Tracks (x >>= f) s (ws ++ after x V s) := by
  rw [bind_eq_proceed]
  refine hx.goOn (fun _ => rfl) ?_ ?_
  · cases hrun : x s with
    | ok a s₁ =>
      rw [after_of_ok V hrun]
      exact hf a s₁ hrun
    | error e s₁ =>
      rw [after_of_error V hrun]
      exact tracks_nil rfl fun _ => rfl
  · cases hrun : x s with
    | ok a s₁ =>
      rw [after_of_ok V hrun]
      exact hleft a s₁ hrun
    | error e s₁ =>
      rw [after_of_error V hrun]
      exact List.forall_mem_nil _

/-- One step after another that is known to end well. -/
theorem Tracks.bind_of_ok {f : α → EStateM Stop σ β} {a : α} {s₁ : σ} (hx : S.Tracks x s ws)
    (hrun : x s = .ok a s₁) (hf : S.Tracks (f a) s₁ vs)
    (hleft : ∀ w ∈ vs, ∀ t, S.Left s₁ w t → S.Left s w t) : S.Tracks (x >>= f) s (ws ++ vs) := by
  have h := hx.bind (f := f) (V := fun _ _ => vs)
    (fun a' s₁' hrun' => by cases hrun.symm.trans hrun'; exact hf)
    fun a' s₁' hrun' => by cases hrun.symm.trans hrun'; exact hleft
  rwa [after_of_ok _ hrun] at h

/-- One step after another that writes nothing. -/
theorem Tracks.bind_of_silent {f : α → EStateM Stop σ β} {a : α} {s₁ : σ} (hx : S.Tracks x s [])
    (hrun : x s = .ok a s₁) (hf : S.Tracks (f a) s₁ vs)
    (hleft : ∀ w ∈ vs, ∀ t, S.Left s₁ w t → S.Left s w t) : S.Tracks (x >>= f) s vs :=
  hx.bind_of_ok hrun hf hleft

end Scene

end Lox
