import Lox.Proofs.Grammar.Phrases
import Lox.Proofs.Parser.Locality

/-!
# Parsers that predict

A parser of the grammar looks at one token and goes on in the only way that this token leaves
open.  So when it cannot go on, everything before that token is still the beginning of a phrase, and
nothing that begins with those tokens and that one is a phrase.

`Predicts L p` says of a parser `p` and a language `L` of phrases: what `p` reads is in `L`, and the
tokens before the place where it is first stuck are the beginning of something in `L`.  The phrase
that completes them is put together step by step: a step that is stuck is completed within its own
language, and the languages of the steps after it have something in them.

That no phrase goes on with the token at which `p` is stuck is not said.  It follows, for a parser
that reads phrases to their end, from what is said instead: `p` is stuck as well when anything else
follows that token.

A reader that starts again after a failure logs other failures later, but the first one is where it
was stuck (`Predicts.stuck?_recovering`).  An invalid target is logged without stopping and does not
count.  The bound plays no part: a parser that runs out of it fails, or ends a list, as it does at a
token that fits nothing (`predicts_expression`, `predicts_statement`).
-/

namespace Lox

open Grammar

/-- Whether a failure makes a reader start again. -/
def Failure.unwinds (f : Failure) : Bool := f.fault ≠ .assignmentTarget

/-- The first failure that makes a reader start again: one in the log, or else the one that the
reply ends with. -/
def Reply.stuck? {α : Type} (r : Reply α) : Option Failure :=
  (r.log.find? Failure.unwinds).or
    (match r.result with
      | .ok _ => none
      | .error f => some f)

namespace Parser

variable {α β : Type} {L M : Language Token} {p q : Parser α} {ts : List Token}

theorem find?_unwinds_eq_none_iff {log : List Failure} :
    log.find? Failure.unwinds = none ↔ Clean log := by
  simp [Clean, Failure.unwinds]

theorem stuck?_ok {a : α} {rest : List Token} {log : List Failure} :
    (⟨.ok a, rest, log⟩ : Reply α).stuck? = log.find? Failure.unwinds := by
  rw [Reply.stuck?, Option.or_none]

theorem stuck?_ok_of_clean {a : α} {rest : List Token} {log : List Failure} (h : Clean log) :
    (⟨.ok a, rest, log⟩ : Reply α).stuck? = none := by
  rw [stuck?_ok, find?_unwinds_eq_none_iff.mpr h]

/-- A reply that is not stuck has read something, and its log is clean. -/
theorem exists_ok_of_stuck? {r : Reply α} (h : r.stuck? = none) :
    ∃ a rest log, r = ⟨.ok a, rest, log⟩ ∧ Clean log := by
  obtain ⟨result, rest, log⟩ := r
  obtain ⟨hlog, hresult⟩ := Option.or_eq_none_iff.mp h
  cases result with
  | ok a => exact ⟨a, rest, log, rfl, find?_unwinds_eq_none_iff.mp hlog⟩
  | error f => cases hresult

theorem stuck?_map (g : α → β) (r : Reply α) : (r.map g).stuck? = r.stuck? := by
  obtain ⟨result, rest, log⟩ := r
  cases result with
  | ok a => rfl
  | error f => rfl

theorem stuck?_after {r : Reply α} {log : List Failure} (h : Clean log) :
    (r.after log).stuck? = r.stuck? := by
  rw [Reply.stuck?, Reply.stuck?, Reply.after, List.find?_append, find?_unwinds_eq_none_iff.mpr h]
  rfl

/-- Nothing that follows gets a reader going again. -/
theorem stuck?_bind_of_some {g : α → Parser β} {f : Failure} (h : (p ts).stuck? = some f) :
    ((p >>= g) ts).stuck? = some f := by
  show (Parser.bind p g ts).stuck? = some f
  unfold Parser.bind
  match p ts, h with
  | ⟨.ok a, rest, log⟩, h =>
    rw [stuck?_ok] at h
    simp only [Reply.stuck?, List.find?_append, h]
    rfl
  | ⟨.error e, rest, log⟩, h => exact h

/-! ### Prediction -/

/-- The parser predicts the language at a list of tokens.  What it reads is in the language, and it
reads the same whatever else follows, if that begins with the same token.  Where it is stuck, the
tokens before are the beginning of something in the language, and it is stuck whatever else follows
there, if that begins with the same token. -/
structure PredictsAt (L : Language Token) (p : Parser α) (ts : List Token) : Prop where
  reads : ∀ {a rest log}, p ts = ⟨.ok a, rest, log⟩ → Clean log →
    ∃ used, ts = used ++ rest ∧ used ∈ L ∧
      ∀ rest', rest'.head? = rest.head? → p (used ++ rest') = ⟨.ok a, rest', log⟩
  stuck : ∀ {f}, (p ts).stuck? = some f → f.unwinds ∧
    ∃ used tail, ts = used ++ tail ∧ f.found = tail.head? ∧ (∃ more, used ++ more ∈ L) ∧
      ∀ tail', tail'.head? = tail.head? → (p (used ++ tail')).stuck? ≠ none

/-- The parser predicts the language everywhere. -/
structure Predicts (L : Language Token) (p : Parser α) : Prop where
  nonempty : Set.Nonempty L
  everywhere : ∀ ts, PredictsAt L p ts

theorem head?_append_congr (used : List Token) {rest rest' : List Token}
    (h : rest'.head? = rest.head?) : (used ++ rest').head? = (used ++ rest).head? := by
  cases used with
  | nil => exact h
  | cons t used => rfl

/-- What holds of the empty list holds of all lists that begin as it does. -/
theorem forall_head?_nil {P : List Token → Prop} (h : P []) :
    ∀ ts', ts'.head? = ([] : List Token).head? → P ts' := by
  intro ts' hts'
  rw [List.head?_eq_none_iff.mp hts']
  exact h

theorem forall_head?_cons {P : List Token → Prop} {t : Token} (h : ∀ us, P (t :: us))
    (ts : List Token) : ∀ ts', ts'.head? = (t :: ts).head? → P ts' := by
  intro ts' hts'
  obtain ⟨us, rfl⟩ := List.head?_eq_some_iff.mp hts'
  exact h us

namespace PredictsAt

theorem mono (h : PredictsAt L p ts) (hLM : L ≤ M) : PredictsAt M p ts where
  reads hp hlog := by
    obtain ⟨used, hts, hused, hsame⟩ := h.reads hp hlog
    exact ⟨used, hts, hLM hused, hsame⟩
  stuck hf := by
    obtain ⟨hunwinds, used, tail, hts, hfound, ⟨more, hmore⟩, hsame⟩ := h.stuck hf
    exact ⟨hunwinds, used, tail, hts, hfound, ⟨more, hLM hmore⟩, hsame⟩

/-- Parsers that are the same on all lists that begin as this one does. -/
theorem congr (h : PredictsAt L q ts) (hpq : ∀ ts', ts'.head? = ts.head? → p ts' = q ts') :
    PredictsAt L p ts where
  reads hp hlog := by
    obtain ⟨used, rfl, hused, hsame⟩ := h.reads ((hpq ts rfl).symm.trans hp) hlog
    refine ⟨used, rfl, hused, fun rest' hrest' => ?_⟩
    rw [hpq _ (head?_append_congr used hrest'), hsame rest' hrest']
  stuck hf := by
    rw [hpq ts rfl] at hf
    obtain ⟨hunwinds, used, tail, rfl, hfound, hmore, hsame⟩ := h.stuck hf
    refine ⟨hunwinds, used, tail, rfl, hfound, hmore, fun tail' htail' => ?_⟩
    rw [hpq _ (head?_append_congr used htail')]
    exact hsame tail' htail'

/-- A first token that is looked at, and what is read after it. -/
theorem cons {t : Token} (h : PredictsAt M q ts) (hpq : ∀ ts', p (t :: ts') = q ts')
    (hL : ∀ u ∈ M, t :: u ∈ L) : PredictsAt L p (t :: ts) where
  reads hp hlog := by
    obtain ⟨used, rfl, hused, hsame⟩ := h.reads ((hpq ts).symm.trans hp) hlog
    refine ⟨t :: used, rfl, hL used hused, fun rest' hrest' => ?_⟩
    rw [List.cons_append, hpq, hsame rest' hrest']
  stuck hf := by
    rw [hpq ts] at hf
    obtain ⟨hunwinds, used, tail, rfl, hfound, ⟨more, hmore⟩, hsame⟩ := h.stuck hf
    refine ⟨hunwinds, t :: used, tail, rfl, hfound, ⟨more, hL _ hmore⟩, fun tail' htail' => ?_⟩
    rw [List.cons_append, hpq]
    exact hsame tail' htail'

/-- Nothing is read, on all lists that begin as this one does. -/
theorem stay {a : α} {log : List Failure} (hlog : Clean log)
    (hp : ∀ ts', ts'.head? = ts.head? → p ts' = ⟨.ok a, ts', log⟩) (hL : [] ∈ L) :
    PredictsAt L p ts where
  reads hok _ := by
    rw [hp ts rfl] at hok
    cases hok
    exact ⟨[], rfl, hL, hp⟩
  stuck hf := by
    rw [hp ts rfl, stuck?_ok_of_clean hlog] at hf
    cases hf

/-- One token is read, whatever follows. -/
theorem one {t : Token} {a : α} (hp : ∀ ts', p (t :: ts') = ⟨.ok a, ts', []⟩) (hL : [t] ∈ L) :
    PredictsAt L p (t :: ts) := by
  have hstay : PredictsAt 1 (fun ts' => (⟨.ok a, ts', []⟩ : Reply α)) ts :=
    stay clean_nil (fun _ _ => rfl) Language.nil_mem_one
  refine hstay.cons hp fun u hu => ?_
  rw [(Language.mem_one u).mp hu]
  exact hL

/-- The parser fails, on all lists that begin as this one does. -/
theorem fail (fault : GrammarFault) (hfault : fault ≠ .assignmentTarget)
    (hp : ∀ ts', ts'.head? = ts.head? → p ts' = Parser.fail fault ts') (hL : Set.Nonempty L) :
    PredictsAt L p ts where
  reads hok _ := by
    rw [hp ts rfl] at hok
    cases hok
  stuck hf := by
    rw [hp ts rfl] at hf
    cases hf
    obtain ⟨more, hmore⟩ := hL
    refine ⟨decide_eq_true hfault, [], ts, rfl, rfl, ⟨more, hmore⟩, fun tail' htail' => ?_⟩
    rw [List.nil_append, hp tail' htail']
    exact nofun

theorem map (h : PredictsAt L p ts) (g : α → β) : PredictsAt L (fun ts => (p ts).map g) ts where
  reads {b rest log} hok hlog := by
    obtain ⟨a, rest, log, hp, -⟩ := exists_ok_of_stuck? ((stuck?_map g (p ts)).symm.trans
      (by rw [hok, stuck?_ok_of_clean hlog]))
    rw [hp] at hok
    cases hok
    obtain ⟨used, hts, hused, hsame⟩ := h.reads hp hlog
    exact ⟨used, hts, hused, fun rest' hrest' => by rw [hsame rest' hrest']; rfl⟩
  stuck hf := by
    rw [stuck?_map] at hf
    obtain ⟨hunwinds, used, tail, hts, hfound, hmore, hsame⟩ := h.stuck hf
    refine ⟨hunwinds, used, tail, hts, hfound, hmore, fun tail' htail' => ?_⟩
    rw [stuck?_map]
    exact hsame tail' htail'

/-- **One step after the other.** -/
theorem bind [Nonempty α] {g : α → Parser β} (h : PredictsAt L p ts)
    (hg : ∀ a, Predicts M (g a)) : PredictsAt (L * M) (p >>= g) ts := by
  cases hstuck : (p ts).stuck? with
  | some f₀ =>
    have hbind := stuck?_bind_of_some (g := g) hstuck
    constructor
    · intro a rest log hok hlog
      rw [hok, stuck?_ok_of_clean hlog] at hbind
      cases hbind
    · intro f hf
      cases hbind.symm.trans hf
      obtain ⟨hunwinds, used, tail, hts, hfound, ⟨more, hmore⟩, hsame⟩ := h.stuck hstuck
      obtain ⟨v, hv⟩ := (hg (Classical.arbitrary α)).nonempty
      refine ⟨hunwinds, used, tail, hts, hfound, ⟨more ++ v, ?_⟩, fun tail' htail' => ?_⟩
      · rw [← List.append_assoc]
        exact Language.append_mem_mul hmore hv
      · obtain ⟨f', hf'⟩ := Option.ne_none_iff_exists'.mp (hsame tail' htail')
        rw [stuck?_bind_of_some hf']
        exact nofun
  | none =>
    obtain ⟨a, rest, log, hp, hlog⟩ := exists_ok_of_stuck? hstuck
    obtain ⟨u, rfl, hu, hsame⟩ := h.reads hp hlog
    -- Whatever else follows, the second parser goes on from there.
    have hrun : ∀ rest', rest'.head? = rest.head? →
        (p >>= g) (u ++ rest') = (g a rest').after log :=
      fun rest' hrest' => bind_eq_after g (hsame rest' hrest')
    constructor
    · intro b rest₂ log₂ hok hlog₂
      rw [hrun rest rfl] at hok
      obtain ⟨m, hgok, rfl⟩ : ∃ m, g a rest = ⟨.ok b, rest₂, m⟩ ∧ log₂ = log ++ m := by
        match hga : g a rest with
        | ⟨result, rest', m⟩ =>
          rw [hga] at hok
          cases hok
          exact ⟨m, rfl, rfl⟩
      obtain ⟨v, rfl, hv, hsame₂⟩ := ((hg a).everywhere rest).reads hgok (clean_append.mp hlog₂).2
      refine ⟨u ++ v, (List.append_assoc ..).symm, Language.append_mem_mul hu hv,
        fun rest' hrest' => ?_⟩
      rw [List.append_assoc, hrun _ (head?_append_congr v hrest'), hsame₂ rest' hrest']
      rfl
    · intro f hf
      rw [hrun rest rfl, stuck?_after hlog] at hf
      obtain ⟨hunwinds, v, tail, rfl, hfound, ⟨more, hmore⟩, hsame₂⟩ :=
        ((hg a).everywhere rest).stuck hf
      refine ⟨hunwinds, u ++ v, tail, (List.append_assoc ..).symm, hfound, ⟨more, ?_⟩,
        fun tail' htail' => ?_⟩
      · rw [List.append_assoc]
        exact Language.append_mem_mul hu hmore
      · rw [List.append_assoc, hrun _ (head?_append_congr v htail'), stuck?_after hlog]
        exact hsame₂ tail' htail'

/-- A last step that only builds the result. -/
theorem bind_pure [Nonempty α] (h : PredictsAt L p ts) (g : α → β) :
    PredictsAt L (p >>= fun a => (Pure.pure (g a) : Parser β)) ts := by
  have hpure : ∀ a, Predicts 1 (Pure.pure (g a) : Parser β) := fun a =>
    ⟨⟨[], Language.nil_mem_one⟩, fun _ => stay clean_nil (fun _ _ => rfl) Language.nil_mem_one⟩
  have hbind := h.bind hpure
  rwa [mul_one] at hbind

end PredictsAt

namespace Predicts

theorem mono (h : Predicts L p) (hLM : L ≤ M) : Predicts M p :=
  ⟨h.nonempty.mono hLM, fun ts => (h.everywhere ts).mono hLM⟩

theorem bind [Nonempty α] {g : α → Parser β} (h : Predicts L p) (hg : ∀ a, Predicts M (g a)) :
    Predicts (L * M) (p >>= g) :=
  ⟨Phrase.nonempty_mul h.nonempty (hg (Classical.arbitrary α)).nonempty,
    fun ts => (h.everywhere ts).bind hg⟩

theorem bind_pure [Nonempty α] (h : Predicts L p) (g : α → β) :
    Predicts L (p >>= fun a => (Pure.pure (g a) : Parser β)) :=
  ⟨h.nonempty, fun ts => (h.everywhere ts).bind_pure g⟩

theorem map (h : Predicts L p) (g : α → β) : Predicts L fun ts => (p ts).map g :=
  ⟨h.nonempty, fun ts => (h.everywhere ts).map g⟩

/-- A reader that starts again is stuck where it failed. -/
theorem stuck?_recovering (h : Predicts L p) (ts : List Token) :
    (recovering p ts).stuck? = (p ts).stuck? := by
  have hunwinds : ∀ f, (p ts).stuck? = some f → f.unwinds :=
    fun f hf => ((h.everywhere ts).stuck hf).1
  unfold Parser.recovering
  match p ts, hunwinds with
  | ⟨.ok a, rest, log⟩, _ => rw [stuck?_ok, stuck?_ok]
  | ⟨.error f, rest, log⟩, hunwinds =>
    rw [stuck?_ok, List.find?_append, Reply.stuck?]
    cases hlog : log.find? Failure.unwinds with
    | some g => rfl
    | none =>
      have hf := hunwinds f (by rw [Reply.stuck?, hlog]; rfl)
      rw [List.find?_cons_of_pos hf]

/-- **Starting again changes nothing up to the first failure.** -/
theorem recovering (h : Predicts L p) : Predicts L (recovering p) := by
  refine ⟨h.nonempty, fun ts => ⟨fun {a rest log} hok hlog => ?_, fun {f} hf => ?_⟩⟩
  · have hnone : (p ts).stuck? = none := by
      rw [← h.stuck?_recovering ts, hok, stuck?_ok_of_clean hlog]
    obtain ⟨a', rest', log', hp, hlog'⟩ := exists_ok_of_stuck? hnone
    obtain ⟨used, hts, hused, hsame⟩ := (h.everywhere ts).reads hp hlog'
    rw [Parser.recovering, hp] at hok
    cases hok
    refine ⟨used, hts, hused, fun rest' hrest' => ?_⟩
    rw [Parser.recovering, hsame rest' hrest']
  · rw [h.stuck?_recovering] at hf
    obtain ⟨hunwinds, used, tail, hts, hfound, hmore, hsame⟩ := (h.everywhere ts).stuck hf
    refine ⟨hunwinds, used, tail, hts, hfound, hmore, fun tail' htail' => ?_⟩
    rw [h.stuck?_recovering]
    exact hsame tail' htail'

end Predicts

theorem predicts_expect (k : Kind) (fault : GrammarFault) (hfault : fault ≠ .assignmentTarget) :
    Predicts (Phrase.terminal k) (expect k fault) := by
  refine ⟨Phrase.nonempty_terminal k, fun ts => ?_⟩
  cases ts with
  | nil => exact .fail fault hfault (forall_head?_nil rfl) (Phrase.nonempty_terminal k)
  | cons t ts =>
    by_cases ht : t.kind = k
    · exact .one (fun us => by rw [expect, if_pos ht]) ⟨⟨t, ht⟩, rfl⟩
    · exact .fail fault hfault (forall_head?_cons (fun us => by rw [expect, if_neg ht]) ts)
        (Phrase.nonempty_terminal k)

/-- A part that stands only after a token of one kind. -/
theorem predicts_after {k : Kind} {after : Token → Parser α} (h : ∀ t, Predicts L (after t)) {a : α}
    (hnil : p [] = ⟨.ok a, [], []⟩)
    (hcons : ∀ t ts, p (t :: ts) = if t.kind = k then after t ts else ⟨.ok a, t :: ts, []⟩) :
    Predicts (1 + Phrase.terminal k * L) p := by
  have habsent : [] ∈ (1 + Phrase.terminal k * L) := .inl rfl
  refine ⟨⟨_, habsent⟩, fun ts => ?_⟩
  cases ts with
  | nil => exact .stay clean_nil (forall_head?_nil hnil) habsent
  | cons t ts =>
    by_cases ht : t.kind = k
    · exact ((h t).everywhere ts).cons (fun us => by rw [hcons, if_pos ht])
        fun u hu => .inr (Phrase.cons_mem_mul ht hu)
    · exact .stay clean_nil (forall_head?_cons (fun us => by rw [hcons, if_neg ht]) ts) habsent

/-! ### Expressions -/

instance : Nonempty Expr := ⟨.literal .nil⟩

instance : Nonempty Stmt := ⟨.block []⟩

section Expressions

variable {expression : Parser Expr} (hE : Predicts (Phrase.expression .assignment) expression)

include hE

theorem predicts_primary : Predicts (Phrase.expression .primary) (primary expression) := by
  have hnonempty := Phrase.nonempty_expression .primary
  refine ⟨hnonempty, fun ts => ?_⟩
  cases ts with
  | nil => exact .fail .expression (by decide) (forall_head?_nil rfl) hnonempty
  | cons t ts =>
    by_cases hname : ∃ n, t.kind = .identifier n
    · obtain ⟨n, hn⟩ := hname
      exact .one (fun us => by rw [primary, hn]) (Phrase.name_le_primary ⟨⟨t, n, hn⟩, rfl⟩)
    by_cases hparen : t.kind = .symbol .leftParen
    · have hrest := (hE.everywhere ts).bind fun e =>
        (predicts_expect (.symbol .rightParen) .parenAfterExpression (by decide)).bind_pure
          fun _ => Expr.grouping e
      exact hrest.cons (fun us => by rw [primary, hparen])
        fun u hu => Phrase.grouping_le_primary (Phrase.cons_mem_mul hparen hu)
    -- What is left is a literal, or no expression begins so.
    have hother : ∀ us, primary expression (t :: us) = (literal? t.kind).elim
        (fail .expression (t :: us)) fun v => ⟨.ok (.literal v), us, []⟩ := by
      intro us
      rw [primary]
      split
      · next n hn => exact absurd ⟨n, hn⟩ hname
      · next hk => exact absurd hk hparen
      · cases literal? t.kind with
        | some v => rfl
        | none => rfl
    cases hv : literal? t.kind with
    | some v => exact .one (fun us => by rw [hother, hv]; rfl) (Phrase.literal_mem_primary hv)
    | none =>
      refine .fail .expression (by decide) (forall_head?_cons (fun us => ?_) ts) hnonempty
      rw [hother, hv]
      rfl

theorem predicts_unary : Predicts (Phrase.expression .unary) (unary expression) := by
  have hprimary := (predicts_primary hE).mono Phrase.primary_le_unary
  refine ⟨Phrase.nonempty_expression .unary, fun ts => ?_⟩
  induction ts with
  | nil => exact (hprimary.everywhere []).congr (forall_head?_nil rfl)
  | cons t ts ih =>
    by_cases ht : isUnary t.kind
    · exact (ih.map (Expr.unary t)).cons (fun us => by rw [unary, if_pos ht])
        fun u hu => Phrase.cons_mem_unary ht hu
    · exact (hprimary.everywhere (t :: ts)).congr
        (forall_head?_cons (fun us => by rw [unary, if_neg ht]) ts)

omit hE in
theorem predicts_operators {l : Level} {operand : Parser Expr}
    (h : Predicts (Phrase.expression (tighter l)) operand) (bound : Nat) (left : Expr) :
    Predicts (Phrase.continuation (.level l) (.level l)) (operators l operand bound left) := by
  have hnil := Phrase.nil_mem_continuation l
  refine ⟨⟨_, hnil⟩, ?_⟩
  induction bound generalizing left with
  | zero => exact fun ts => .stay clean_nil (fun _ _ => rfl) hnil
  | succ bound ih =>
    intro ts
    cases ts with
    | nil => exact .stay clean_nil (forall_head?_nil rfl) hnil
    | cons t ts =>
      by_cases ht : Level.of? t.kind = some l
      · have hround := (h.everywhere ts).bind fun right => ⟨⟨_, hnil⟩, ih (l.node left t right)⟩
        exact hround.cons (fun us => by rw [operators, if_pos ht])
          fun u hu => Phrase.cons_mem_continuation ht hu
      · exact .stay clean_nil (forall_head?_cons (fun us => by rw [operators, if_neg ht]) ts) hnil

omit hE in
theorem predicts_leveled {l : Level} {operand : Parser Expr} (bound : Nat)
    (h : Predicts (Phrase.expression (tighter l)) operand) :
    Predicts (Phrase.expression (.level l)) (leveled bound l operand) :=
  (h.bind (predicts_operators h bound)).mono (Phrase.operand_mul_continuation_le l)

theorem predicts_disjunction (bound : Nat) :
    Predicts (Phrase.expression (.level .or)) (disjunction bound expression) :=
  predicts_leveled bound <| predicts_leveled bound <| predicts_leveled bound <|
    predicts_leveled bound <| predicts_leveled bound <| predicts_leveled bound <| predicts_unary hE

omit hE in
/-- An invalid target is no reason to stop. -/
theorem predicts_assignment (left : Expr) (equals : Token) (value : Expr) :
    Predicts 1 (assignment left equals value) := by
  refine ⟨⟨[], Language.nil_mem_one⟩, fun ts => ?_⟩
  unfold assignment
  split
  · exact .stay clean_nil (fun _ _ => rfl) Language.nil_mem_one
  · have hlog : Clean [⟨.assignmentTarget, some equals⟩] := List.forall_mem_singleton.mpr rfl
    exact .stay hlog (fun _ _ => rfl) Language.nil_mem_one

theorem predicts_assigned (left : Expr) :
    Predicts (Phrase.continuation (.level .or) .assignment) (assigned expression left) := by
  have hvalue : ∀ t, Predicts (Phrase.expression .assignment)
      (expression >>= assignment left t) := by
    intro t
    have hbind := hE.bind (predicts_assignment left t)
    rwa [mul_one] at hbind
  exact (predicts_after hvalue rfl fun _ _ => rfl).mono Phrase.optional_equal_le_assigned

end Expressions

/-- **Expressions are predicted,** whatever the bound is. -/
theorem predicts_expression (bound : Nat) :
    Predicts (Phrase.expression .assignment) (expression bound) := by
  induction bound with
  | zero =>
    have hnonempty := Phrase.nonempty_expression .assignment
    exact ⟨hnonempty, fun ts => .fail .expression (by decide) (fun _ _ => rfl) hnonempty⟩
  | succ bound ih =>
    exact ((predicts_disjunction ih bound).bind (predicts_assigned ih)).mono
      Phrase.or_mul_assigned_le

/-! ### Declarations -/

section Statements

variable {expression : Parser Expr} (hE : Predicts (Phrase.expression .assignment) expression)

include hE

theorem predicts_initialValue :
    Predicts (1 + Phrase.terminal (.symbol .equal) * Phrase.expression .assignment)
      (varDeclaration.initialValue expression) :=
  predicts_after (fun _ => hE.map some) rfl fun _ _ => rfl

theorem predicts_varDeclaration : Predicts Phrase.variableTail (varDeclaration expression) := by
  have htail : ∀ t : Token, Predicts _ (do
      let initial ← varDeclaration.initialValue expression
      expect (.symbol .semicolon) .semicolonAfterDeclaration
      return .declare t initial : Parser Stmt) := fun t =>
    (predicts_initialValue hE).bind fun initial =>
      (predicts_expect _ .semicolonAfterDeclaration (by decide)).bind_pure
        fun _ => Stmt.declare t initial
  have hnonempty : Set.Nonempty Phrase.variableTail :=
    Phrase.nonempty_mul ⟨_, ⟨⟨.identifier "", "", 0⟩, "", rfl⟩, rfl⟩ (htail ⟨.eof, "", 0⟩).nonempty
  refine ⟨hnonempty, fun ts => ?_⟩
  cases ts with
  | nil => exact .fail .variableName (by decide) (forall_head?_nil rfl) hnonempty
  | cons t ts =>
    by_cases ht : ∃ n, t.kind = .identifier n
    · obtain ⟨n, hn⟩ := ht
      exact ((htail t).everywhere ts).cons (fun us => by rw [varDeclaration, hn])
        fun u hu => Language.append_mem_mul (a := [t]) ⟨⟨t, n, hn⟩, rfl⟩ hu
    · refine .fail .variableName (by decide) (forall_head?_cons (fun us => ?_) ts) hnonempty
      rw [varDeclaration]
      split
      · next n hn => exact absurd ⟨n, hn⟩ ht
      · rfl

variable {statement : Parser Stmt} (hS : Predicts Phrase.statement statement)

include hS

theorem predicts_declaration : Predicts Phrase.declaration (declaration expression statement) := by
  rw [declaration_eq]
  have hstatement := hS.mono Phrase.statement_le_declaration
  refine Predicts.recovering ⟨hstatement.nonempty, fun ts => ?_⟩
  cases ts with
  | nil => exact (hstatement.everywhere []).congr (forall_head?_nil rfl)
  | cons t ts =>
    by_cases ht : t.kind = .keyword .varKw
    · exact ((predicts_varDeclaration hE).everywhere ts).cons
        (fun us => by rw [attempt, if_pos ht])
        fun u hu => Phrase.variable_le_declaration (Phrase.cons_mem_mul ht hu)
    · exact (hstatement.everywhere (t :: ts)).congr
        (forall_head?_cons (fun us => by rw [attempt, if_neg ht]) ts)

omit hE hS in
theorem predicts_declarations (stops : Kind → Bool) {declare : Parser (Option Stmt)}
    (h : Predicts Phrase.declaration declare) (bound : Nat) :
    Predicts Phrase.program (declarations stops declare bound) := by
  have hnil := Phrase.nil_mem_program
  refine ⟨⟨_, hnil⟩, ?_⟩
  induction bound with
  | zero => exact fun ts => .stay clean_nil (fun _ _ => rfl) hnil
  | succ bound ih =>
    intro ts
    cases ts with
    | nil => exact .stay clean_nil (forall_head?_nil rfl) hnil
    | cons t ts =>
      by_cases ht : stops t.kind
      · exact .stay clean_nil
          (forall_head?_cons (fun us => by rw [declarations, if_pos ht]) ts) hnil
      · have hround := (h.everywhere (t :: ts)).bind fun first =>
          (⟨⟨_, hnil⟩, ih⟩ : Predicts _ (declarations stops declare bound)).bind_pure
            (first.toList ++ ·)
        exact (hround.mono Phrase.declaration_mul_program_le).congr
          (forall_head?_cons (fun us => by rw [declarations, if_neg ht]) ts)

/-! ### Statements -/

omit hS in
/-- An expression and a semicolon, whatever is made of them. -/
theorem predicts_terminated (fault : GrammarFault) (hfault : fault ≠ .assignmentTarget)
    (node : Expr → Stmt) :
    Predicts (Phrase.expression .assignment * Phrase.terminal (.symbol .semicolon)) (do
      let e ← expression
      expect (.symbol .semicolon) fault
      return node e : Parser Stmt) :=
  hE.bind fun e => (predicts_expect _ fault hfault).bind_pure fun _ => node e

theorem predicts_block (bound : Nat) :
    Predicts (Phrase.program * Phrase.terminal (.symbol .rightBrace))
      (block bound (declaration expression statement)) :=
  (predicts_declarations _ (predicts_declaration hE hS) bound).bind fun body =>
    (predicts_expect _ .braceAfterBlock (by decide)).bind_pure fun _ => Stmt.block body

omit hE in
theorem predicts_otherwise (condition : Expr) (yes : Stmt) :
    Predicts (1 + Phrase.terminal (.keyword .elseKw) * Phrase.statement)
      (otherwise statement condition yes) :=
  predicts_after (fun _ => hS.map (.ifElse condition yes)) rfl fun _ _ => rfl

theorem predicts_conditional : Predicts Phrase.ifTail (conditional expression statement) :=
  (predicts_expect _ .parenAfterIf (by decide)).bind fun _ => hE.bind fun condition =>
    (predicts_expect _ .parenAfterIfCondition (by decide)).bind fun _ => hS.bind fun yes =>
      predicts_otherwise hS condition yes

theorem predicts_whileLoop : Predicts Phrase.whileTail (whileLoop expression statement) :=
  (predicts_expect _ .parenAfterWhile (by decide)).bind fun _ => hE.bind fun condition =>
    (predicts_expect _ .parenAfterCondition (by decide)).bind fun _ =>
      hS.bind_pure (Stmt.loop condition)

omit hS in
theorem predicts_loopInitial : Predicts Phrase.initial (loopInitial expression) := by
  have hexpr : Predicts Phrase.initial fun ts => (exprStatement expression ts).map some :=
    ((predicts_terminated hE .semicolonAfterExpression (by decide) .expr).map some).mono
      Phrase.expr_le_initial
  refine ⟨hexpr.nonempty, fun ts => ?_⟩
  cases ts with
  | nil => exact (hexpr.everywhere []).congr (forall_head?_nil rfl)
  | cons t ts =>
    by_cases hsemicolon : t.kind = .symbol .semicolon
    · exact .one (fun us => by rw [loopInitial, hsemicolon])
        (Phrase.semicolon_le_initial ⟨⟨t, hsemicolon⟩, rfl⟩)
    by_cases hvar : t.kind = .keyword .varKw
    · exact (((predicts_varDeclaration hE).everywhere ts).map some).cons
        (fun us => by rw [loopInitial, hvar])
        fun u hu => Phrase.variable_le_initial (Phrase.cons_mem_mul hvar hu)
    · refine (hexpr.everywhere (t :: ts)).congr (forall_head?_cons (fun us => ?_) ts)
      rw [loopInitial]
      split
      · next hk => exact absurd hk hsemicolon
      · next hk => exact absurd hk hvar
      · rfl

omit hS in
theorem predicts_exprBefore (kind : Kind) :
    Predicts Phrase.optional (exprBefore kind expression) := by
  have hexpr : Predicts Phrase.optional fun ts => (expression ts).map some :=
    (hE.map some).mono fun _ => .inr
  refine ⟨hexpr.nonempty, fun ts => ?_⟩
  cases ts with
  | nil => exact (hexpr.everywhere []).congr (forall_head?_nil rfl)
  | cons t ts =>
    by_cases ht : t.kind = kind
    · exact .stay clean_nil
        (forall_head?_cons (fun us => by rw [exprBefore, if_pos ht]) ts) (.inl rfl)
    · exact (hexpr.everywhere (t :: ts)).congr
        (forall_head?_cons (fun us => by rw [exprBefore, if_neg ht]) ts)

theorem predicts_forLoop : Predicts Phrase.forTail (forLoop expression statement) :=
  (predicts_expect _ .parenAfterFor (by decide)).bind fun _ =>
    (predicts_loopInitial hE).bind fun initial =>
    (predicts_exprBefore hE (.symbol .semicolon)).bind fun condition =>
    (predicts_expect _ .semicolonAfterLoopCondition (by decide)).bind fun _ =>
    (predicts_exprBefore hE (.symbol .rightParen)).bind fun increment =>
    (predicts_expect _ .parenAfterForClauses (by decide)).bind fun _ =>
      hS.bind_pure (countingLoop initial condition increment)

end Statements

/-- **Statements are predicted,** whatever the bound is. -/
theorem predicts_statement (bound : Nat) : Predicts Phrase.statement (statement bound) := by
  have hnonempty := Phrase.nonempty_statement
  induction bound with
  | zero => exact ⟨hnonempty, fun ts => .fail .expression (by decide) (fun _ _ => rfl) hnonempty⟩
  | succ bound ih =>
    have hE := predicts_expression bound
    have hexpr := predicts_terminated (predicts_expression (bound + 1)) .semicolonAfterExpression
      (by decide) .expr
    refine ⟨hnonempty, fun ts => ?_⟩
    cases ts with
    | nil => exact .fail .expression (by decide) (forall_head?_nil rfl) hnonempty
    | cons t ts =>
      by_cases hif : t.kind = .keyword .ifKw
      · exact ((predicts_conditional hE ih).everywhere ts).cons (fun us => by rw [statement, hif])
          fun u hu => Phrase.if_le_statement (Phrase.cons_mem_mul hif hu)
      by_cases hprint : t.kind = .keyword .printKw
      · exact ((predicts_terminated hE .semicolonAfterValue (by decide) .print).everywhere ts).cons
          (fun us => by rw [statement, hprint]; rfl)
          fun u hu => Phrase.print_le_statement (Phrase.cons_mem_mul hprint hu)
      by_cases hbrace : t.kind = .symbol .leftBrace
      · exact ((predicts_block hE ih bound).everywhere ts).cons
          (fun us => by rw [statement, hbrace])
          fun u hu => Phrase.block_le_statement (Phrase.cons_mem_mul hbrace hu)
      by_cases hwhile : t.kind = .keyword .whileKw
      · exact ((predicts_whileLoop hE ih).everywhere ts).cons (fun us => by rw [statement, hwhile])
          fun u hu => Phrase.while_le_statement (Phrase.cons_mem_mul hwhile hu)
      by_cases hfor : t.kind = .keyword .forKw
      · exact ((predicts_forLoop hE ih).everywhere ts).cons (fun us => by rw [statement, hfor])
          fun u hu => Phrase.for_le_statement (Phrase.cons_mem_mul hfor hu)
      refine ((hexpr.mono Phrase.expr_le_statement).everywhere (t :: ts)).congr
        (forall_head?_cons (fun us => ?_) ts)
      rw [statement]
      split
      · next hk => exact absurd hk hif
      · next hk => exact absurd hk hprint
      · next hk => exact absurd hk hbrace
      · next hk => exact absurd hk hwhile
      · next hk => exact absurd hk hfor
      · rfl

end Parser

end Lox
