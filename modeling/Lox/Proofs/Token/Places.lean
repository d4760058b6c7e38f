import Lox.Proofs.Token.Lines

/-!
# The places of tokens

A token *stands* in a text when its lexeme is a part of the text and its line is the one on which
that part ends.  Every token of a source text stands in it, and so does the end of the input, on the
last line (`stands_of_mem_tokens`); every error of the text is on one of its lines
(`onLine_of_mem_errors`).  All of this is for texts of fewer lines than the largest number of a line,
where counting does not start again.
-/

namespace Lox

/-- A line of the text, counted from one. -/
def OnLine (cs : List Char) (line : Int32) : Prop :=
  1 ≤ line.toInt ∧ line.toInt ≤ (1 + cs.count '\n' : Nat)

/-- The lexeme of the token is a part of the text, which ends on the token's line. -/
def Token.Stands (cs : List Char) (t : Token) : Prop :=
  ∃ before after, cs = before ++ t.lexeme.toList ++ after ∧
    t.line.toInt = (1 + (before ++ t.lexeme.toList).count '\n' : Nat)

theorem Token.Stands.onLine {cs : List Char} {t : Token} (h : t.Stands cs) : OnLine cs t.line := by
  obtain ⟨before, after, rfl, hline⟩ := h
  rw [OnLine, hline, @List.count_append _ _ _ _ after]
  omega

namespace Piece

@[simp]
theorem newlinesOf_append (ps qs : List Piece) :
    newlinesOf (ps ++ qs) = newlinesOf ps + newlinesOf qs := by
  rw [newlinesOf, List.flatMap_append, List.count_append]
  rfl

theorem toInt_lineAfterEach {ps : List Piece} (h : newlinesOf ps < 2147483647) :
    (lineAfterEach 1 ps).toInt = (1 + newlinesOf ps : Nat) := by
  rw [lineAfterEach_eq, toInt_one_add_ofNat h]

end Piece

namespace Scan

/-! ### The piece that a token or an error comes from -/

theorem exists_of_mem_words {ps : List Piece} {line : Int32} {t : Token} (ht : t ∈ words line ps) :
    ∃ front p back, ps = front ++ p :: back ∧
      p.token? (Piece.lineAfterEach line (front ++ [p])) = some t := by
  induction ps generalizing line with
  | nil => cases ht
  | cons p ps ih =>
    rw [words, List.mem_append] at ht
    obtain ht | ht := ht
    · exact ⟨[], p, ps, rfl, Option.mem_toList.mp ht⟩
    · obtain ⟨front, q, back, rfl, hq⟩ := ih ht
      exact ⟨p :: front, q, back, rfl, hq⟩

theorem exists_of_mem_errors {ps : List Piece} {line : Int32} {e : LexicalError}
    (he : e ∈ (ofPieces line ps).errors) :
    ∃ front p back, ps = front ++ p :: back ∧
      p.error? (Piece.lineAfterEach line front) = some e := by
  induction ps generalizing line with
  | nil => cases he
  | cons p ps ih =>
    rw [ofPieces, List.mem_append] at he
    obtain he | he := he
    · exact ⟨[], p, ps, rfl, Option.mem_toList.mp he⟩
    · obtain ⟨front, q, back, rfl, hq⟩ := ih he
      exact ⟨p :: front, q, back, rfl, hq⟩

/-! ### Lines of a source text -/

variable {source : String}

theorem newlinesOf_le_of_split {front back : List Piece}
    (h : Piece.split source.toList = front ++ back) :
    Piece.newlinesOf front ≤ source.toList.count '\n' := by
  rw [← Piece.newlinesOf_split, h, Piece.newlinesOf_append]
  exact Nat.le_add_right _ _

variable (hlines : source.toList.count '\n' < 2147483647)

include hlines

theorem stands_of_mem_words {t : Token} (ht : t ∈ words 1 (Piece.split source.toList)) :
    t.Stands source.toList := by
  obtain ⟨front, p, back, hsplit, htoken⟩ := exists_of_mem_words ht
  obtain ⟨kind, -, rfl⟩ := Option.map_eq_some_iff.mp htoken
  have hfront : Piece.split source.toList = (front ++ [p]) ++ back := by rw [hsplit]; simp
  have hle := newlinesOf_le_of_split hfront
  refine ⟨front.flatMap Piece.chars, back.flatMap Piece.chars, ?_, ?_⟩
  · rw [String.toList_ofList, ← Piece.flatMap_chars_split source.toList, hsplit]
    simp [List.flatMap_append]
  · rw [String.toList_ofList, Piece.toInt_lineAfterEach (by omega), Piece.newlinesOf,
      List.flatMap_append]
    simp

theorem toInt_endLine :
    (Piece.lineAfterEach 1 (Piece.split source.toList)).toInt =
      (1 + source.toList.count '\n' : Nat) := by
  rw [Piece.toInt_lineAfterEach (by rwa [Piece.newlinesOf_split]), Piece.newlinesOf_split]

/-- **Every token stands in the text,** the end of the input at its end. -/
theorem stands_of_mem_tokens {t : Token} (ht : t ∈ (scan source).tokens) :
    t.Stands source.toList := by
  rw [scan, tokens_ofPieces, List.mem_append, List.mem_singleton] at ht
  obtain ht | rfl := ht
  · exact stands_of_mem_words hlines ht
  · refine ⟨source.toList, [], by simp, ?_⟩
    rw [toInt_endLine hlines]
    simp

/-- **Every error is on a line of the text.** -/
theorem onLine_of_mem_errors {e : LexicalError} (he : e ∈ (scan source).errors) :
    OnLine source.toList e.line := by
  obtain ⟨front, p, back, hsplit, herror⟩ := exists_of_mem_errors he
  obtain ⟨fault, -, rfl⟩ := Option.map_eq_some_iff.mp herror
  have hle := newlinesOf_le_of_split hsplit
  rw [OnLine, Piece.toInt_lineAfterEach (by omega)]
  omega

end Scan

end Lox
