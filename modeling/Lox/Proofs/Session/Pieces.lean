import Lox.Proofs.Parser.Seam
import Lox.Proofs.Session.Runs
import Lox.Proofs.Token.Seam

/-!
# Running a program in pieces

Two source texts with a line feed between them are read as the statements of the first and then
those of the second, further down (`Readable.join`).  So running them as one text is running the
first, and, unless it raised a runtime error, the second after it.
-/

namespace Lox

namespace Session

variable {A B : String}

/-! ### Reading -/

/-- **Two texts with a line feed between them are read one after the other.** -/
theorem Readable.join (hA : Readable A) (hB : Readable B) (hopen : (scan A).openComment = false) :
    Readable (A ++ "\n" ++ B) ∧ statements (A ++ "\n" ++ B) = statements A ++
      Stmt.relabelEach (Token.later (Int32.ofNat (1 + A.toList.count '\n'))) (statements B) := by
  have hends := Scan.endsBefore_of_closed hopen (by simp [hA.lexical])
  have hlexical : (scan (A ++ "\n" ++ B)).errors = [] := by
    rw [Scan.join_eq B hends]
    simp [Scan.later, hA.lexical, hB.lexical]
  have hbody : Program.body (scan (A ++ "\n" ++ B)).tokens = Program.body (scan A).tokens ++
      (Program.body (scan B).tokens).map (Token.later (Int32.ofNat (1 + A.toList.count '\n'))) := by
    rw [Scan.body_scan, Scan.body_scan, Scan.body_scan, toList_join, Scan.words_join _ hends]
  obtain ⟨hgrammatical, hstatements⟩ :=
    parse_join (f := Token.later _) (fun _ => rfl) hbody hA.grammatical hB.grammatical
  exact ⟨⟨hlexical, hgrammatical⟩, hstatements⟩

theorem allowed_of_mem_statements (hlines : (A ++ "\n" ++ B).toList.count '\n' < 2147483647) :
    ∀ t ∈ Stmt.tokensOf (statements B),
      (Stack.further (1 + A.toList.count '\n')).Allowed t := by
  intro t ht
  obtain ⟨as, rest, log, hprogram, hstatements, -⟩ := exists_parse_eq (scan B).tokens
  rw [statements, hstatements] at ht
  have hmem := Parser.mem_of_mem_tokensOf_program hprogram t ht
  rw [Scan.body_scan] at hmem
  refine Scan.toInt_line_later hmem ?_
  rw [toList_join, List.count_append, List.count_cons_self] at hlines
  rw [Piece.newlinesOf_split]
  omega

/-! ### Running -/

/-- What shows of a session: the bytes it wrote, its global variables and its flags. -/
structure Visible where
  written : ByteArray
  globals : List Scope
  hadError : Bool
  hadRuntimeError : Bool

/-- What shows of a session. -/
def visible (s : Session) : Visible :=
  ⟨s.machine.sink.held, s.machine.scopes.toList s.globals, s.hadError, s.hadRuntimeError⟩

theorem Leaves.visible_eq {s s' : Session} {t : Stack} {raised : Bool} (h : s.Leaves s' t raised) :
    s'.visible = ⟨t.sink.held, t.scopes, s.hadError, s.hadRuntimeError || raised⟩ := by
  rw [← h.view_eq, ← h.hadError_eq, ← h.hadRuntimeError_eq]
  rfl

section

variable {bound : Nat} {s s₁ : Session}

theorem ends_of_run {source : String} (hsource : Readable source) (hs : s.Ready)
    (hrun : run bound source s = .ok () s₁) :
    (∃ t, Stack.interpret bound (statements source) s.view = .ok () t ∧ s.Leaves s₁ t false) ∨
      ∃ e t, Stack.interpret bound (statements source) s.view = .error (.fault e) t ∧
        s.Leaves s₁ (written t e.report) true := by
  cases hend : Stack.interpret bound (statements source) s.view with
  | ok u t =>
    obtain ⟨s', hrun', hleaves⟩ := run_of_ok hsource hs hend
    rw [hrun] at hrun'
    cases hrun'
    exact .inl ⟨t, rfl, hleaves⟩
  | error e t =>
    by_cases he : ∃ f, e = .fault f
    · obtain ⟨f, rfl⟩ := he
      obtain ⟨s', hrun', hleaves⟩ := run_of_fault hsource hs hend
      rw [hrun] at hrun'
      cases hrun'
      exact .inr ⟨f, t, rfl, hleaves⟩
    · obtain ⟨s', hrun'⟩ := run_of_error hsource hs (fun f hf => he ⟨f, hf⟩) hend
      rw [hrun] at hrun'
      cases hrun'

/-- What a run that ended raised is decided by its own bound. -/
theorem raises_iff {source : String} (hsource : Readable source) (hs : s.Ready)
    (hrun : run bound source s = .ok () s₁) {e : RuntimeError} : s.Raises source e ↔
      ∃ t, Stack.interpret bound (statements source) s.view = .error (.fault e) t := by
  have hend := (interpret_lockstep hs bound (statements source) s.machine.events).symm
  constructor
  · rintro ⟨bound', m, hm⟩
    obtain ⟨t, ht, -⟩ | ⟨f, t, ht, -⟩ := ends_of_run hsource hs hrun
    · obtain ⟨_, m', hm', -⟩ := hend.exists_of_ok ht
      cases eq_of_persists (fun hle => persists_interpret hle _ _) hm hm' nofun nofun
    · obtain ⟨_, m', hm', rfl, -⟩ := hend.exists_of_error ht
      cases eq_of_persists (fun hle => persists_interpret hle _ _) hm hm' nofun nofun
      exact ⟨t, ht⟩
  · rintro ⟨t, ht⟩
    obtain ⟨_, m, hm, rfl, -⟩ := hend.exists_of_error ht
    exact ⟨bound, m, hm⟩

theorem Leaves.ready {t : Stack} (h : s.Leaves s₁ t false) (hs : s.Ready) (ht : t.sink.Reliable) :
    s₁.Ready where
  hadError_eq := h.hadError_eq.trans hs.hadError_eq
  dumpsTrees_eq := h.dumpsTrees_eq.trans hs.dumpsTrees_eq
  reliable := by
    rw [← h.view_eq] at ht
    exact ht
  held := h.held

theorem run_join_of_fault (hs : s.Ready) (hA : Readable A) (hB : Readable B)
    (hopen : (scan A).openComment = false) {e : RuntimeError} {t : Stack}
    (h : Stack.interpret bound (statements A) s.view = .error (.fault e) t) :
    ∃ s', run bound (A ++ "\n" ++ B) s = .ok () s' ∧ s.Leaves s' (written t e.report) true := by
  obtain ⟨hjoined, hstatements⟩ := hA.join hB hopen
  refine run_of_fault hjoined hs ?_
  rw [hstatements]
  exact Stack.interpret_append_of_error hs.reliable h

section

variable {t₁ t₂ : Stack} (hs : s.Ready) (hA : Readable A) (hB : Readable B)
  (hopen : (scan A).openComment = false)
  (hlines : (A ++ "\n" ++ B).toList.count '\n' < 2147483647)
  (h₁ : Stack.interpret bound (statements A) s.view = .ok () t₁)

include hs hA hB hopen hlines h₁

theorem lockstep_join : Lockstep Eq (Stack.further (1 + A.toList.count '\n')).Stops
    ((Stack.further (1 + A.toList.count '\n')).Stacks 1) (Stack.interpret bound (statements B) t₁)
    (Stack.interpret bound (statements (A ++ "\n" ++ B)) s.view) := by
  rw [(hA.join hB hopen).2]
  exact Stack.interpret_append_of_ok hs.reliable (allowed_of_mem_statements hlines) h₁

theorem run_join_of_ok (h₂ : Stack.interpret bound (statements B) t₁ = .ok () t₂) :
    ∃ s' t, run bound (A ++ "\n" ++ B) s = .ok () s' ∧ s.Leaves s' t false ∧
      t.scopes = t₂.scopes ∧ t.sink.held = t₂.sink.held := by
  obtain ⟨_, t, ht, -, hst⟩ := (lockstep_join hs hA hB hopen hlines h₁).exists_of_ok h₂
  obtain ⟨s', hrun, hleaves⟩ := run_of_ok (hA.join hB hopen).1 hs ht
  exact ⟨s', t, hrun, hleaves, hst.1.symm, hst.2.1.symm⟩

theorem run_join_of_late_fault {e : RuntimeError}
    (h₂ : Stack.interpret bound (statements B) t₁ = .error (.fault e) t₂) :
    ∃ (s' : Session) (t : Stack) (e' : RuntimeError), run bound (A ++ "\n" ++ B) s = .ok () s' ∧
      s.Leaves s' (written t e'.report) true ∧ t.scopes = t₂.scopes ∧
      t.sink.held = t₂.sink.held ∧ e'.message = e.message ∧
      e'.line.toInt = e.line.toInt + (1 + A.toList.count '\n' : Nat) := by
  obtain ⟨stop, t, ht, hstop, hst⟩ := (lockstep_join hs hA hB hopen hlines h₁).exists_of_error h₂
  obtain ⟨e', rfl, hmessage, hline⟩ : ∃ e', stop = .fault e' ∧
      (Stack.further (1 + A.toList.count '\n')).Errors e e' := by
    cases hstop with
    | fault he => exact ⟨_, rfl, he⟩
  obtain ⟨s', hrun, hleaves⟩ := run_of_fault (hA.join hB hopen).1 hs ht
  exact ⟨s', t, e', hrun, hleaves, hst.1.symm, hst.2.1.symm, hmessage, hline⟩

end

/-- **Running a program in pieces is running it whole.**  A session that executes what it reads runs
two texts with a line feed between them as the first text alone if that raises a runtime error, and
otherwise as the first text and then the second: what is written, the global variables and the flags
are the same, but a runtime error of the second text is reported on a line that is larger by one and
the line feeds of the first. -/
theorem run_in_pieces (hs : s.Ready) (hA : Readable A) (hB : Readable B)
    (hopen : (scan A).openComment = false)
    (hlines : (A ++ "\n" ++ B).toList.count '\n' < 2147483647) (hrunA : s.Runs A s₁) :
    (∀ e, s.Raises A e → ∃ s', s.Runs (A ++ "\n" ++ B) s' ∧ s'.visible = s₁.visible) ∧
    ((∀ e, ¬s.Raises A e) → ∀ s₂, s₁.Runs B s₂ →
      ∃ s', s.Runs (A ++ "\n" ++ B) s' ∧
        ((∀ e, ¬s₁.Raises B e) → s'.visible = s₂.visible) ∧
        ∀ e, s₁.Raises B e → ∃ (before : ByteArray) (line : Int32),
          line.toInt = e.line.toInt + (1 + A.toList.count '\n' : Nat) ∧
          s₂.visible.written = before ++ (Report.runtime e.line e.message ++ "\n").toUTF8 ∧
          s'.visible = { s₂.visible with
            written := before ++ (Report.runtime line e.message ++ "\n").toUTF8 }) := by
  obtain ⟨boundA, hrunA⟩ := hrunA
  constructor
  · intro e he
    obtain ⟨t, ht⟩ := (raises_iff hA hs hrunA).mp he
    obtain ⟨s₁', hrunA', hleaves⟩ := run_of_fault hA hs ht
    rw [hrunA] at hrunA'
    cases hrunA'
    obtain ⟨s', hrun, hleaves'⟩ := run_join_of_fault hs hA hB hopen ht
    exact ⟨s', ⟨boundA, hrun⟩, hleaves'.visible_eq.trans hleaves.visible_eq.symm⟩
  · rintro hnot s₂ ⟨boundB, hrunB⟩
    -- Both texts, and so the two as one, end under the larger bound.
    have hA' := (persists_run (Nat.le_max_left boundA boundB) A).eq_of_ne hrunA nofun
    have hB' := (persists_run (Nat.le_max_right boundA boundB) B).eq_of_ne hrunB nofun
    obtain ⟨t₁, ht₁, hleaves₁⟩ | ⟨e, t₁, ht₁, -⟩ := ends_of_run hA hs hA'
    swap
    · exact absurd ((raises_iff hA hs hA').mpr ⟨t₁, ht₁⟩) (hnot e)
    have hs₁ : s₁.Ready := hleaves₁.ready hs
      (Stack.reliable_of_ok (Stack.further_zero_follows_interpret _ _) hs.reliable ht₁)
    have hraises := fun e => raises_iff hB hs₁ hB' (e := e)
    obtain ⟨t₂, ht₂, hleaves₂⟩ | ⟨e, t₂, ht₂, hleaves₂⟩ := ends_of_run hB hs₁ hB'
    · obtain ⟨s', t, hrun, hleaves, hscopes, hheld⟩ :=
        run_join_of_ok hs hA hB hopen hlines ht₁ (hleaves₁.view_eq ▸ ht₂)
      refine ⟨s', ⟨_, hrun⟩, fun _ => ?_, fun e he => ?_⟩
      · rw [hleaves.visible_eq, hleaves₂.visible_eq, hleaves₁.hadError_eq,
          hleaves₁.hadRuntimeError_eq, hscopes, hheld, Bool.or_false, Bool.or_false]
      · obtain ⟨t, ht⟩ := (hraises e).mp he
        rw [ht₂] at ht
        cases ht
    · obtain ⟨s', t, e', hrun, hleaves, hscopes, hheld, hmessage, hline⟩ :=
        run_join_of_late_fault hs hA hB hopen hlines ht₁ (hleaves₁.view_eq ▸ ht₂)
      refine ⟨s', ⟨_, hrun⟩, fun hnotB => absurd ((hraises e).mpr ⟨t₂, ht₂⟩) (hnotB e),
        fun f hf => ?_⟩
      obtain ⟨t', ht'⟩ := (hraises f).mp hf
      rw [ht₂] at ht'
      cases ht'
      refine ⟨t₂.sink.held, e'.line, hline, ?_, ?_⟩
      · rw [hleaves₂.visible_eq]
        rfl
      · rw [hleaves.visible_eq, hleaves₂.visible_eq, hleaves₁.hadError_eq, ← hmessage, ← hheld]
        simp only [written, hscopes, Bool.or_true]
        rfl

theorem run_in_pieces_late_error :
    let s := Session.start {} false
    let s₁ : Session := { s with
      machine := ⟨s.machine.scopes.define (some 0) "a" .nil, { flushes := 1 },
        [.parsed 1 0, .scanned 4 0]⟩ }
    s.Ready ∧ Readable "var a;\n" ∧ Readable "\n-a;" ∧ (scan "var a;\n").openComment = false ∧
      ("var a;\n" ++ "\n" ++ "\n-a;").toList.count '\n' < 2147483647 ∧
      s.Runs "var a;\n" s₁ ∧ (∀ e, ¬s.Raises "var a;\n" e) ∧
      ∃ (s₂ s' : Session) (before : ByteArray) (line : Int32), s₁.Runs "\n-a;" s₂ ∧
        s.Runs ("var a;\n" ++ "\n" ++ "\n-a;") s' ∧ line.toInt = 4 ∧
        s₂.visible.written =
          before ++ (Report.runtime 2 "Operand must be a number." ++ "\n").toUTF8 ∧
        s'.visible = { s₂.visible with
          written :=
            before ++ (Report.runtime line "Operand must be a number." ++ "\n").toUTF8 } := by
  intro s s₁
  have hs : s.Ready := ⟨rfl, rfl, ⟨rfl, rfl⟩, 0, ⟨{}, none, 1⟩, rfl, rfl, Nat.le_refl 1⟩
  have hs₁ : s₁.Ready := ⟨rfl, rfl, ⟨rfl, rfl⟩, 0, ⟨_, none, 1⟩, rfl, rfl, Nat.le_refl 1⟩
  have hA : Readable "var a;\n" := ⟨by decide +kernel, by decide +kernel⟩
  have hB : Readable "\n-a;" := ⟨by decide +kernel, by decide +kernel⟩
  have hopen : (scan "var a;\n").openComment = false := by decide +kernel
  have hlines : ("var a;\n" ++ "\n" ++ "\n-a;").toList.count '\n' < 2147483647 := by
    decide +kernel
  have hA' : statements "var a;\n" = [.declare (.identifier "a" 1) none] := by
    with_unfolding_all rfl
  have hB' : statements "\n-a;" =
      [.expr (.unary ⟨.symbol .minus, "-", 2⟩ (.name (.identifier "a" 2)))] := by
    with_unfolding_all rfl
  have hread : s.afterReading "var a;\n" = s.withEvents [.parsed 1 0, .scanned 4 0] :=
    congrArg s.withEvents (by decide +kernel)
  have hrunA : run 1 "var a;\n" s = .ok () s₁ := by
    rw [hs.run_eq_ended hA, hA', hread]
    with_unfolding_all rfl
  have hnot : ∀ e, ¬s.Raises "var a;\n" e := by
    intro e he
    obtain ⟨t, ht⟩ := (raises_iff hA hs hrunA).mp he
    rw [hA'] at ht
    cases ht
  have hfault : ∃ t, Stack.interpret 1 (statements "\n-a;") s₁.view =
      .error (.fault ⟨.operandNotNumber, ⟨.symbol .minus, "-", 2⟩⟩) t := by
    rw [hB']
    exact ⟨s₁.view, by with_unfolding_all rfl⟩
  obtain ⟨t, ht⟩ := hfault
  obtain ⟨s₂, hrunB, -⟩ := run_of_fault hB hs₁ ht
  obtain ⟨s', hrun, -, hlate⟩ :=
    (run_in_pieces hs hA hB hopen hlines ⟨1, hrunA⟩).2 hnot s₂ ⟨1, hrunB⟩
  obtain ⟨before, line, hline, hwritten, hvisible⟩ :=
    hlate _ ((raises_iff hB hs₁ hrunB).mpr ⟨t, ht⟩)
  exact ⟨hs, hA, hB, hopen, hlines, ⟨1, hrunA⟩, hnot, s₂, s', before, line, ⟨1, hrunB⟩, hrun, hline,
    hwritten, hvisible⟩

end

end Session

end Lox
