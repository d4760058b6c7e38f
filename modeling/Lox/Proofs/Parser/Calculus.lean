import Lox.Parser.Statement

/-!
# Two ways to speak of a parser

`Takes p used a log rest` says what a parser does with a text: of `used` followed by `rest` it reads
`used` as `a`.  `Reads p D` says what a reading means: whatever the parser reads, it stands in the
relation `D` to the tokens read and to those that follow.  The first is for completeness, the second
for soundness, and both are put together along the steps of a parser.

A log is *clean* when the parser never had to start again: all it holds is invalid targets of
assignments.  A failure is never one of these.
-/

namespace Lox

/-- A reply after more has been logged. -/
def Reply.after {α : Type} (log : List Failure) (r : Reply α) : Reply α :=
  ⟨r.result, r.rest, log ++ r.log⟩

namespace Parser

variable {α β : Type}

/-! ### Taking tokens -/

/-- The parser reads the tokens `used` as `a` and leaves `rest`. -/
def Takes (p : Parser α) (used : List Token) (a : α) (log : List Failure)
    (rest : List Token) : Prop :=
  p (used ++ rest) = ⟨.ok a, rest, log⟩

theorem takes_pure (a : α) (rest : List Token) : Takes (Pure.pure a : Parser α) [] a [] rest := rfl

theorem bind_eq_after {p : Parser α} (f : α → Parser β) {used rest : List Token} {a : α}
    {log : List Failure} (h : Takes p used a log rest) :
    (p >>= f) (used ++ rest) = (f a rest).after log := by
  show Parser.bind p f (used ++ rest) = _
  rw [Parser.bind, h]
  rfl

theorem Takes.bind {p : Parser α} {f : α → Parser β} {u v rest : List Token} {a : α} {b : β}
    {l m : List Failure} (hp : Takes p u a l (v ++ rest)) (hf : Takes (f a) v b m rest) :
    Takes (p >>= f) (u ++ v) b (l ++ m) rest := by
  rw [Takes, List.append_assoc, bind_eq_after f hp, hf]
  rfl

theorem takes_expect {k : Kind} (fault : GrammarFault) {t : Token} (h : t.kind = k)
    (rest : List Token) : Takes (expect k fault) [t] () [] rest := by
  show expect k fault (t :: rest) = _
  rw [expect, if_pos h]

/-- Reading a fixed token first, as the parsers after a keyword do. -/
theorem Takes.expect_bind {k : Kind} {fault : GrammarFault} {t : Token} (h : t.kind = k)
    {f : Unit → Parser β} {v rest : List Token} {b : β} {m : List Failure}
    (hf : Takes (f ()) v b m rest) : Takes (expect k fault >>= f) (t :: v) b m rest :=
  (takes_expect fault h (v ++ rest)).bind hf

/-- A last step that only builds the result. -/
theorem Takes.bind_pure {p : Parser α} {g : α → β} {u rest : List Token} {a : α} {l : List Failure}
    (hp : Takes p u a l rest) :
    Takes (p >>= fun x => (Pure.pure (g x) : Parser β)) u (g a) l rest := by
  have h := Takes.bind (f := fun x => (Pure.pure (g x) : Parser β)) (v := []) hp (takes_pure _ rest)
  rwa [List.append_nil, List.append_nil] at h

/-! ### Meaning of a reading -/

/-- The parser that wrote the log never had to start again. -/
def Clean (log : List Failure) : Prop := ∀ f ∈ log, f.fault = .assignmentTarget

theorem clean_append {l m : List Failure} : Clean (l ++ m) ↔ Clean l ∧ Clean m := by
  simp only [Clean, List.mem_append]
  constructor
  · exact fun h => ⟨fun f hf => h f (.inl hf), fun f hf => h f (.inr hf)⟩
  · rintro ⟨hl, hm⟩ f (hf | hf)
    · exact hl f hf
    · exact hm f hf

theorem clean_nil : Clean [] := fun _ h => absurd h (by simp)

/-- If the reply to `ts` was given without starting again, what was read stands in the relation `D`
to the tokens that were read, the tokens after them and the log; and a failure is one that makes a
reader start again. -/
def Meets (ts : List Token) (r : Reply α)
    (D : α → List Token → List Token → List Failure → Prop) : Prop :=
  match r with
  | ⟨.ok a, rest, log⟩ => Clean log → ∃ used, ts = used ++ rest ∧ D a used rest log
  | ⟨.error f, _, _⟩ => f.fault ≠ .assignmentTarget

/-- All that the parser reads stands in the relation `D` to the tokens read. -/
def Reads (p : Parser α) (D : α → List Token → List Token → List Failure → Prop) : Prop :=
  ∀ ts, Meets ts (p ts) D

section Meets

variable {ts : List Token} {D : α → List Token → List Token → List Failure → Prop}

theorem Meets.mono {r : Reply α} {E : α → List Token → List Token → List Failure → Prop}
    (h : Meets ts r D) (hDE : ∀ a used rest log, D a used rest log → E a used rest log) :
    Meets ts r E := by
  match r with
  | ⟨.ok a, rest, log⟩ =>
    intro hc
    obtain ⟨used, hts, hD⟩ := h hc
    exact ⟨used, hts, hDE a used rest log hD⟩
  | ⟨.error f, _, _⟩ => exact h

/-- A reply to what follows a token that was looked at. -/
theorem Meets.cons {r : Reply α} (t : Token) (h : Meets ts r D) :
    Meets (t :: ts) r fun a used rest log => ∃ u, used = t :: u ∧ D a u rest log := by
  match r with
  | ⟨.ok a, rest, log⟩ =>
    intro hc
    obtain ⟨used, hts, hD⟩ := h hc
    exact ⟨t :: used, by rw [hts, List.cons_append], used, rfl, hD⟩
  | ⟨.error f, _, _⟩ => exact h

theorem Meets.map {r : Reply α} (g : α → β) (h : Meets ts r D) :
    Meets ts (r.map g) fun b used rest log => ∃ a, b = g a ∧ D a used rest log := by
  match r with
  | ⟨.ok a, rest, log⟩ =>
    intro hc
    obtain ⟨used, hts, hD⟩ := h hc
    exact ⟨used, hts, a, rfl, hD⟩
  | ⟨.error f, _, _⟩ => exact h

/-- **Two steps read what the one and then the other reads.** -/
theorem Meets.bind {p : Parser α} {f : α → Parser β}
    {E : α → β → List Token → List Token → List Failure → Prop} (hp : Meets ts (p ts) D)
    (hf : ∀ a rest, Meets rest (f a rest) (E a)) :
    Meets ts ((p >>= f) ts) fun b used rest log => ∃ a u v l m, used = u ++ v ∧ log = l ++ m ∧
      D a u (v ++ rest) l ∧ E a b v rest m := by
  show Meets ts (Parser.bind p f ts) _
  unfold Parser.bind
  match p ts, hp with
  | ⟨.error g, r, l⟩, hp => exact hp
  | ⟨.ok a, r, l⟩, hp =>
    have hfa := hf a r
    simp only
    match f a r, hfa with
    | ⟨.error g, r', m⟩, hfa => exact hfa
    | ⟨.ok b, r', m⟩, hfa =>
      intro hc
      obtain ⟨hcl, hcm⟩ := clean_append.mp hc
      obtain ⟨u, hu, hD⟩ := hp hcl
      obtain ⟨v, rfl, hE⟩ := hfa hcm
      exact ⟨u ++ v, by rw [hu, List.append_assoc], a, u, v, l, m, rfl, rfl, hD, hE⟩

theorem meets_fail {fault : GrammarFault} (h : fault ≠ .assignmentTarget) (ts : List Token)
    (D : α → List Token → List Token → List Failure → Prop) : Meets ts (fail fault ts) D := h

/-- A reply that reads nothing. -/
theorem meets_stay (ts : List Token) (a : α) :
    Meets ts ⟨.ok a, ts, []⟩ fun b used _ log => b = a ∧ used = [] ∧ log = [] :=
  fun _ => ⟨[], rfl, rfl, rfl, rfl⟩

/-- A reply that reads one token. -/
theorem meets_one (t : Token) (ts : List Token) (a : α) :
    Meets (t :: ts) ⟨.ok a, ts, []⟩ fun b used _ log => b = a ∧ used = [t] ∧ log = [] :=
  fun _ => ⟨[t], rfl, rfl, rfl, rfl⟩

end Meets

theorem Reads.bind {p : Parser α} {D : α → List Token → List Token → List Failure → Prop}
    {f : α → Parser β} {E : α → β → List Token → List Token → List Failure → Prop} (hp : Reads p D)
    (hf : ∀ a, Reads (f a) (E a)) :
    Reads (p >>= f) fun b used rest log => ∃ a u v l m, used = u ++ v ∧ log = l ++ m ∧
      D a u (v ++ rest) l ∧ E a b v rest m :=
  fun ts => (hp ts).bind hf

theorem reads_pure (a : α) :
    Reads (Pure.pure a : Parser α) fun b used _ log => b = a ∧ used = [] ∧ log = [] :=
  fun ts => meets_stay ts a

theorem reads_note (fault : GrammarFault) (t : Token) :
    Reads (note fault t) fun _ used _ log => used = [] ∧ log = [⟨fault, some t⟩] :=
  fun _ _ => ⟨[], rfl, rfl, rfl⟩

/-- **A token of a fixed kind, and then what the next step reads.** -/
theorem Reads.expect_bind {k : Kind} {fault : GrammarFault} (h : fault ≠ .assignmentTarget)
    {f : Unit → Parser β} {E : β → List Token → List Token → List Failure → Prop}
    (hf : Reads (f ()) E) :
    Reads (expect k fault >>= f) fun b used rest log =>
      ∃ t v, t.kind = k ∧ used = t :: v ∧ E b v rest log := by
  intro ts
  show Meets ts (Parser.bind (expect k fault) f ts) _
  unfold Parser.bind
  cases ts with
  | nil => exact h
  | cons t ts =>
    by_cases hk : t.kind = k
    · rw [expect, if_pos hk]
      exact ((hf ts).cons t).mono fun b used rest log ⟨v, hu, hE⟩ => ⟨t, v, hk, hu, hE⟩
    · rw [expect, if_neg hk]
      exact h

/-- A last step that only builds the result. -/
theorem Reads.bind_pure {p : Parser α} {D : α → List Token → List Token → List Failure → Prop}
    (g : α → β) (h : Reads p D) :
    Reads (p >>= fun x => (Pure.pure (g x) : Parser β)) fun b used rest log =>
      ∃ a, b = g a ∧ D a used rest log := by
  intro ts
  refine (h.bind fun a => reads_pure (g a)) ts |>.mono fun b used rest log => ?_
  rintro ⟨a, u, v, l, m, rfl, rfl, hD, rfl, rfl, rfl⟩
  rw [List.nil_append] at hD
  exact ⟨a, rfl, by rwa [List.append_nil, List.append_nil]⟩

end Parser

end Lox
