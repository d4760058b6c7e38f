import Lox.Proofs.Lexicon.Units
import Lox.Proofs.Token.Lines

/-!
# Scanning and the lexical grammar

Every source text has exactly one segmentation into units, and reading its tokens gives the tokens
and the errors of that segmentation, and after them the end of the input.
-/

namespace Lox

namespace Lexicon

/-! ### The only segmentation -/

theorem Regular.ne_nil {text rest : List Char} {y : Yield} (h : Regular text rest y) :
    text ≠ [] := by
  cases h with
  | number hlongest =>
    cases hlongest.holds with
    | whole hds => exact hds.1
    | fraction hds hes => simp
  | @keyword k rest hlongest => cases k <;> simp [Keyword.spelling]
  | identifier hlongest hk =>
    cases hlongest.holds with
    | mk hc hcs => simp
  | @operator s rest hlongest hline hblock => cases s <;> simp [Symbol.spelling]
  | _ => simp

theorem IsUnit.ne_nil {text rest : List Char} {y : Yield} (h : IsUnit text rest y) :
    text ≠ [] := by
  cases h with
  | regular h => exact h.ne_nil
  | stray h => simp

/-- The pieces of a text after `before`, as units in their places. -/
def place (before : List Char) : List Piece → List Placed
  | [] => []
  | p :: ps => ⟨before, p.chars, yields p⟩ :: place (before ++ p.chars) ps

theorem segmentation_nil_iff {before : List Char} {us : List Placed} :
    Segmentation before [] us ↔ us = [] := by
  constructor
  · intro h
    generalize hcs : ([] : List Char) = cs at h
    cases h with
    | done => rfl
    | unit h hus => exact absurd (List.append_eq_nil_iff.mp hcs.symm).1 h.ne_nil
  · rintro rfl
    exact .done before

theorem segmentation_cons_iff {before cs : List Char} {c : Char} {us : List Placed} :
    Segmentation before (c :: cs) us ↔ ∃ vs,
      us = ⟨before, (Piece.next c cs).1.chars, yields (Piece.next c cs).1⟩ :: vs ∧
        Segmentation (before ++ (Piece.next c cs).1.chars) (Piece.next c cs).2 vs := by
  constructor
  · intro h
    generalize hcs : c :: cs = ds at h
    cases h with
    | done => cases hcs
    | @unit _ text rest y vs h hvs =>
      obtain ⟨p, hp, rfl, rfl⟩ := (isUnit_iff hcs).mp h
      rw [hp]
      exact ⟨vs, rfl, hvs⟩
  · rintro ⟨vs, rfl, hvs⟩
    have hcover := Piece.chars_next_append c cs
    have hunit := (isUnit_iff hcover.symm).mpr ⟨_, rfl, rfl, rfl⟩
    rw [← hcover]
    exact .unit hunit hvs

/-- **The pieces of a text are its only segmentation.** -/
theorem segmentation_iff (cs : List Char) : ∀ (before : List Char) (us : List Placed),
    Segmentation before cs us ↔ us = place before (Piece.split cs) := by
  fun_induction Piece.split cs with
  | case1 => exact fun _ _ => segmentation_nil_iff
  | case2 c cs r ih =>
    intro before us
    rw [segmentation_cons_iff]
    constructor
    · rintro ⟨vs, rfl, hvs⟩
      rw [(ih _ vs).mp hvs]
      rfl
    · rintro rfl
      exact ⟨_, rfl, (ih _ _).mpr rfl⟩

/-- Every unit of a segmentation is one, before what follows it. -/
theorem Segmentation.exists_isUnit {before cs : List Char} {us : List Placed}
    (h : Segmentation before cs us) : ∀ u ∈ us, ∃ rest, IsUnit u.text rest u.gives := by
  induction h with
  | done before => exact fun _ h => (List.not_mem_nil h).elim
  | unit hunit hus ih => exact List.forall_mem_cons.mpr ⟨⟨_, hunit⟩, ih⟩

/-! ### Tokens and errors -/

theorem eq_of_token? {u : Placed} {t : Token} (h : u.token? = some t) :
    u.gives = .token t.kind ∧ t.lexeme = String.ofList u.text ∧
      t.line = lineAfter (u.before ++ u.text) := by
  unfold Placed.token? at h
  split at h
  · next kind hgives =>
    cases h
    exact ⟨hgives, rfl, rfl⟩
  · cases h

theorem eq_of_error? {u : Placed} {line : Int32} {message : String}
    (h : u.error? = some (line, message)) :
    u.gives = .error message ∧ line = lineAfter u.before := by
  unfold Placed.error? at h
  split at h
  · next message' hgives =>
    cases h
    exact ⟨hgives, rfl⟩
  · cases h

theorem lineAfter_append (before : List Char) (p : Piece) :
    lineAfter (before ++ p.chars) = p.lineAfter (lineAfter before) := by
  rw [lineAfter, List.count_append, Int32.ofNat_add, ← Int32.add_assoc]
  rfl

theorem token?_placed (before : List Char) (p : Piece) :
    Placed.token? ⟨before, p.chars, yields p⟩ = p.token? (p.lineAfter (lineAfter before)) := by
  rw [← lineAfter_append, Placed.token?, Piece.token?, yields]
  cases p.kind? with
  | some kind => rfl
  | none => cases p.fault? <;> rfl

theorem error?_placed (before : List Char) (p : Piece) :
    Placed.error? ⟨before, p.chars, yields p⟩ =
      (p.error? (lineAfter before)).map fun e => (e.line, e.message) := by
  cases p with
  | word text =>
    rw [Placed.error?, yields, Piece.kind?]
    cases Keyword.ofSpelling? text <;> rfl
  | _ => rfl

theorem words_eq_place : ∀ (ps : List Piece) (before : List Char),
    Scan.words (lineAfter before) ps = (place before ps).filterMap Placed.token? := by
  intro ps
  induction ps with
  | nil => exact fun _ => rfl
  | cons p ps ih =>
    intro before
    rw [Scan.words, place, List.filterMap_cons, token?_placed, ← lineAfter_append, ih]
    cases p.token? (lineAfter (before ++ p.chars)) <;> rfl

theorem errors_eq_place : ∀ (ps : List Piece) (before : List Char),
    (Scan.ofPieces (lineAfter before) ps).errors.map (fun e => (e.line, e.message)) =
      (place before ps).filterMap Placed.error? := by
  intro ps
  induction ps with
  | nil => exact fun _ => rfl
  | cons p ps ih =>
    intro before
    rw [Scan.ofPieces, place, List.filterMap_cons, error?_placed, ← ih (before ++ p.chars),
      lineAfter_append]
    cases p.error? (lineAfter before) <;> rfl

/-- **Scanning gives what the lexical grammar says.**  A source text has exactly one segmentation
into units; its tokens are those of the units, in order, and then the end of the input with an empty
lexeme, and its errors are those of the units, in order. -/
theorem scan_exactly_lexicon (source : String) : ∃ us : List Placed,
    Segmentation [] source.toList us ∧ (∀ vs, Segmentation [] source.toList vs → vs = us) ∧
      (scan source).tokens =
        us.filterMap Placed.token? ++ [⟨.eof, "", lineAfter source.toList⟩] ∧
      (scan source).errors.map (fun e => (e.line, e.message)) = us.filterMap Placed.error? := by
  refine ⟨place [] (Piece.split source.toList), (segmentation_iff _ _ _).mpr rfl,
    fun vs h => (segmentation_iff _ _ _).mp h, ?_, errors_eq_place _ []⟩
  rw [scan, Scan.tokens_ofPieces, Piece.lineAfterEach_eq, Piece.newlinesOf_split]
  exact congrArg (· ++ _) (words_eq_place _ [])

end Lexicon

end Lox
