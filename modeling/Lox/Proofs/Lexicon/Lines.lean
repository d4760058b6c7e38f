import Lox.Proofs.Lexicon.Scan
import Lox.Proofs.Token.Places
import Mathlib.Data.List.Forall2

/-!
# Lines are exact

Lines are counted modulo the size of a word, one count for the whole source text.  In a text of
fewer lines than the largest number of a line that is no restriction: a token is on the line that
its unit ends on, an error on the line that its unit starts on, and the end of the input on the last
line, where lines are one more than the line feeds before (`lines_exact`).

The units of a text stand in it one after the other (`Segmentation.pairwise`), so lines never go
back.
-/

namespace Lox

namespace Lexicon

/-! ### Units in their order -/

namespace Segmentation

variable {before cs : List Char} {us : List Placed}

theorem prefixes (h : Segmentation before cs us) :
    ∀ u ∈ us, before <+: u.before ∧ u.before ++ u.text <+: before ++ cs := by
  induction h with
  | done before => exact fun _ h => (List.not_mem_nil h).elim
  | @unit before text rest y us hunit hus ih =>
    refine List.forall_mem_cons.mpr ⟨⟨List.prefix_rfl, ?_⟩, fun u hu => ?_⟩
    · rw [← List.append_assoc]
      exact List.prefix_append _ _
    · obtain ⟨hbefore, hafter⟩ := ih u hu
      rw [List.append_assoc] at hafter
      exact ⟨(List.prefix_append _ _).trans hbefore, hafter⟩

/-- **A unit ends before the next one starts.** -/
theorem pairwise (h : Segmentation before cs us) :
    us.Pairwise fun u v => u.before ++ u.text <+: v.before := by
  induction h with
  | done before => exact .nil
  | unit hunit hus ih => exact .cons (fun v hv => (hus.prefixes v hv).1) ih

end Segmentation

/-! ### Tokens and errors in their places -/

/-- The token is that of the unit, and its line is one more than the line feeds before its end. -/
structure EndsAt (t : Token) (u : Placed) : Prop where
  gives : u.gives = .token t.kind
  lexeme : t.lexeme = String.ofList u.text
  line : t.line.toInt = (1 + (u.before ++ u.text).count '\n' : Nat)

/-- The error is that of the unit, and its line is one more than the line feeds before it. -/
structure StartsAt (e : LexicalError) (u : Placed) : Prop where
  gives : u.gives = .error e.message
  unexpected : e.fault = .unexpectedCharacter → ∃ c, u.text = [c]
  unterminated : e.fault = .unterminatedString → ∃ text, u.text = '"' :: text
  line : e.line.toInt = (1 + u.before.count '\n' : Nat)

theorem IsUnit.eq_singleton {text rest : List Char}
    (h : IsUnit text rest (.error "Unexpected character.")) : ∃ c, text = [c] := by
  generalize hy : Yield.error "Unexpected character." = y at h
  cases h with
  | regular h => exact absurd hy.symm h.ne_unexpected
  | stray h => exact ⟨_, rfl⟩

theorem IsUnit.eq_quote_cons {text rest : List Char}
    (h : IsUnit text rest (.error "Unterminated string.")) : ∃ more, text = '"' :: more := by
  generalize hy : Yield.error "Unterminated string." = y at h
  cases h with
  | regular h =>
    cases h with
    | openString htext => exact ⟨_, rfl⟩
    | _ => cases hy
  | stray h => exact absurd (Yield.error.inj hy) (by decide)

theorem forall₂_filterMap {α β : Type} (f : α → Option β) : ∀ l : List α,
    List.Forall₂ (fun b a => a ∈ l ∧ f a = some b) (l.filterMap f)
      (l.filter fun a => (f a).isSome) := by
  intro l
  induction l with
  | nil => exact .nil
  | cons a l ih =>
    have htail : List.Forall₂ (fun b a' => a' ∈ a :: l ∧ f a' = some b) (l.filterMap f)
        (l.filter fun a => (f a).isSome) :=
      ih.imp fun b a' h => ⟨List.mem_cons_of_mem a h.1, h.2⟩
    cases hfa : f a with
    | none => simpa [hfa] using htail
    | some b => simpa [hfa] using htail

section

variable {source : String} {us : List Placed} (hus : Segmentation [] source.toList us)
  (hlines : source.toList.count '\n' < 2147483647)

include hus hlines

theorem toInt_lineAfter_of_mem {u : Placed} (hu : u ∈ us) {cs : List Char}
    (hcs : cs <+: u.before ++ u.text) : (lineAfter cs).toInt = (1 + cs.count '\n' : Nat) := by
  have hprefix : cs <+: source.toList := hcs.trans (hus.prefixes u hu).2
  have hle := hprefix.sublist.count_le '\n'
  exact toInt_one_add_ofNat (by omega)

theorem endsAt_of_token? {u : Placed} (hu : u ∈ us) {t : Token} (ht : u.token? = some t) :
    EndsAt t u := by
  obtain ⟨hgives, hlexeme, hline⟩ := eq_of_token? ht
  refine ⟨hgives, hlexeme, ?_⟩
  rw [hline]
  exact toInt_lineAfter_of_mem hus hlines hu List.prefix_rfl

theorem startsAt_of_error? {u : Placed} (hu : u ∈ us) {e : LexicalError}
    (he : u.error? = some (e.line, e.message)) : StartsAt e u := by
  obtain ⟨rest, hunit⟩ := hus.exists_isUnit u hu
  obtain ⟨hgives, hline⟩ := eq_of_error? he
  rw [hgives, LexicalError.message] at hunit
  refine ⟨hgives, fun hfault => ?_, fun hfault => ?_, ?_⟩
  · rw [hfault] at hunit
    exact hunit.eq_singleton
  · rw [hfault] at hunit
    exact hunit.eq_quote_cons
  · rw [hline]
    exact toInt_lineAfter_of_mem hus hlines hu (List.prefix_append _ _)

/-- **Lines never go back.**  This holds of whatever the units give, as long as each of them gives
it on a line from its start to its end. -/
theorem pairwise_lines {β : Type} {f : Placed → Option β} {line : β → Int32}
    (h : ∀ u b, f u = some b →
      ∃ cs, u.before <+: cs ∧ cs <+: u.before ++ u.text ∧ line b = lineAfter cs) :
    (us.filterMap f).Pairwise fun a b => (line a).toInt ≤ (line b).toInt := by
  refine List.Pairwise.filterMap f ?_ (List.Pairwise.and_mem.mp hus.pairwise)
  rintro u v ⟨hu, hv, huv⟩ a ha b hb
  obtain ⟨cs, -, hcs, hline⟩ := h u a ha
  obtain ⟨ds, hds, hds', hline'⟩ := h v b hb
  have hle := ((hcs.trans huv).trans hds).sublist.count_le '\n'
  rw [hline, hline', toInt_lineAfter_of_mem hus hlines hu hcs,
    toInt_lineAfter_of_mem hus hlines hv hds']
  omega

end

theorem toInt_lineAfter_piece {source : String} (hlines : source.toList.count '\n' < 2147483647)
    {front back : List Piece} {p : Piece} (h : Piece.split source.toList = front ++ p :: back) :
    (p.lineAfter (Piece.lineAfterEach 1 front)).toInt =
      (Piece.lineAfterEach 1 front).toInt + p.newlines := by
  have hfront := Scan.newlinesOf_le_of_split h
  have hnext : Piece.split source.toList = (front ++ [p]) ++ back := by simp [h]
  have hle := Scan.newlinesOf_le_of_split hnext
  have hstep : p.lineAfter (Piece.lineAfterEach 1 front) =
      Piece.lineAfterEach 1 (front ++ [p]) := by
    rw [Piece.lineAfterEach, Piece.lineAfterEach, List.foldl_append]
    rfl
  have hadd : Piece.newlinesOf (front ++ [p]) = Piece.newlinesOf front + p.newlines := by
    rw [Piece.newlinesOf_append, Piece.newlinesOf_cons]
    rfl
  rw [hstep, Piece.toInt_lineAfterEach (by omega), Piece.toInt_lineAfterEach (by omega), hadd]
  omega

/-- **Lines are exact.**  Take the units of a source text, which it has only one way to be cut into.
The tokens are those of the units that give one, each on the line that its unit ends on, and then
the end of the input on the last line, whatever the text ends inside of; the errors are those of the
units that give one, on the line that the stray character or the opening quote is on.  Lines of
tokens and of errors never go back, and the count never exceeds a word. -/
theorem lines_exact (source : String) (hlines : source.toList.count '\n' < 2147483647) :
    ∃ us, Segmentation [] source.toList us ∧ (∀ vs, Segmentation [] source.toList vs → vs = us) ∧
      (∀ u ∈ us, u.before ++ u.text <+: source.toList) ∧
      (∃ (words : List Token) (eof : Token), (scan source).tokens = words ++ [eof] ∧
        List.Forall₂ EndsAt words (us.filter fun u => u.token?.isSome) ∧
        eof.kind = .eof ∧ eof.line.toInt = (1 + source.toList.count '\n' : Nat)) ∧
      List.Forall₂ StartsAt (scan source).errors (us.filter fun u => u.error?.isSome) ∧
      (scan source).tokens.Pairwise (fun s t => s.line.toInt ≤ t.line.toInt) ∧
      (scan source).errors.Pairwise (fun d e => d.line.toInt ≤ e.line.toInt) ∧
      ∀ front p back, Piece.split source.toList = front ++ p :: back →
        (p.lineAfter (Piece.lineAfterEach 1 front)).toInt =
          (Piece.lineAfterEach 1 front).toInt + p.newlines := by
  let us := place [] (Piece.split source.toList)
  have hus : Segmentation [] source.toList us := (segmentation_iff _ _ _).mpr rfl
  have hwords : Scan.words 1 (Piece.split source.toList) = us.filterMap Placed.token? :=
    words_eq_place _ []
  have herrors : (scan source).errors.map (fun e => (e.line, e.message)) =
      us.filterMap Placed.error? := errors_eq_place _ []
  have htokens : (scan source).tokens = us.filterMap Placed.token? ++
      [⟨.eof, "", Piece.lineAfterEach 1 (Piece.split source.toList)⟩] := by
    rw [scan, Scan.tokens_ofPieces, hwords]
  have hend := Scan.toInt_endLine hlines
  refine ⟨us, hus, fun vs hvs => (segmentation_iff _ _ _).mp hvs,
    fun u hu => (hus.prefixes u hu).2,
    ⟨_, _, htokens, (forall₂_filterMap _ us).imp fun t u h => endsAt_of_token? hus hlines h.1 h.2,
      rfl, hend⟩, ?_, ?_, ?_, fun front p back h => toInt_lineAfter_piece hlines h⟩
  · have hplaced := forall₂_filterMap Placed.error? us
    rw [← herrors, List.forall₂_map_left_iff] at hplaced
    exact hplaced.imp fun e u h => startsAt_of_error? hus hlines h.1 h.2
  · rw [htokens, List.pairwise_append]
    refine ⟨pairwise_lines hus hlines fun u t h =>
      ⟨_, List.prefix_append _ _, List.prefix_rfl, (eq_of_token? h).2.2⟩,
      List.pairwise_singleton _ _, fun t ht eof heof => ?_⟩
    -- The end of the input is after every unit.
    obtain ⟨u, hu, ht⟩ := List.mem_filterMap.mp ht
    have hle := (hus.prefixes u hu).2.sublist.count_le '\n'
    rw [List.mem_singleton.mp heof, (endsAt_of_token? hus hlines hu ht).line, hend]
    exact Int.ofNat_le.mpr (Nat.add_le_add_left hle 1)
  · have hpairs : (us.filterMap Placed.error?).Pairwise fun d e => d.1.toInt ≤ e.1.toInt :=
      pairwise_lines hus hlines fun u e h =>
        ⟨_, List.prefix_rfl, List.prefix_append _ _, (eq_of_error? h).2⟩
    rw [← herrors, List.pairwise_map] at hpairs
    exact hpairs

/-- A string over two lines, a line comment, a stray character and, at the end, an open string over
two lines. -/
theorem lines_exact_open_string :
    let source := "\"a\nb\" // c\n@ \"d\n"
    source.toList.count '\n' < 2147483647 ∧
      (scan source).tokens.map Token.line = [2, 4] ∧
      (scan source).errors = [⟨.unexpectedCharacter, 3⟩, ⟨.unterminatedString, 3⟩] ∧
      ∃ us, Segmentation [] source.toList us ∧
        List.Forall₂ StartsAt (scan source).errors (us.filter fun u => u.error?.isSome) := by
  intro source
  have hlines : source.toList.count '\n' < 2147483647 := by decide +kernel
  obtain ⟨us, hus, -, -, -, herrors, -⟩ := lines_exact source hlines
  exact ⟨hlines, by decide +kernel, by decide +kernel, us, hus, herrors⟩

end Lexicon

end Lox
