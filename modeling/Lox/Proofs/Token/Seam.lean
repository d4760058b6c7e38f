import Lox.Proofs.Token.Places

/-!
# Scanning across a line feed

Two source texts with a line feed between them are scanned as the one and then, on later lines, the
other, unless the first one ends inside a string or a comment (`scan_join`).  Nothing is asked of
the characters of either text, so both may have errors.

A scan goes on from the line where it stands, so scanning pieces one after the other is scanning the
first ones and then the rest (`ofPieces_append`), and further down the same is found on later lines
(`ofPieces_add`).  What is left is that a line feed ends every piece before it, which is
`Piece.split_append`.
-/

namespace Lox

namespace LexicalError

/-- The error, a number of lines further down. -/
def later (k : Int32) (e : LexicalError) : LexicalError := ⟨e.fault, e.line + k⟩

end LexicalError

theorem OnLine.toInt_add {cs : List Char} {line : Int32} (h : OnLine cs line) {n : Nat}
    (hn : cs.count '\n' + n < 2147483647) : (line + Int32.ofNat n).toInt = line.toInt + n := by
  obtain ⟨hpos, hle⟩ := h
  rw [Int32.toInt_add, Int32.toInt_ofNat_of_lt (by omega), Int.bmod_eq_of_le (by omega) (by omega)]

namespace Scan

/-- The scan, a number of lines further down. -/
def later (k : Int32) (s : Scan) : Scan :=
  ⟨s.tokens.map (Token.later k), s.errors.map (LexicalError.later k), s.openComment⟩

/-! ### Pieces after pieces -/

theorem ofPieces_append : ∀ (ps qs : List Piece) (line : Int32), ofPieces line (ps ++ qs) =
    ⟨words line ps ++ (ofPieces (Piece.lineAfterEach line ps) qs).tokens,
      (ofPieces line ps).errors ++ (ofPieces (Piece.lineAfterEach line ps) qs).errors,
      (ofPieces line ps).openComment ||
        (ofPieces (Piece.lineAfterEach line ps) qs).openComment⟩ := by
  intro ps qs
  induction ps with
  | nil => exact fun _ => rfl
  | cons p ps ih =>
    intro line
    rw [List.cons_append, ofPieces, ofPieces, words, ih, List.append_assoc, List.append_assoc,
      Bool.or_assoc]
    rfl

/-- **Further down stands the same scan on later lines.** -/
theorem ofPieces_add (k : Int32) : ∀ (ps : List Piece) (line : Int32),
    ofPieces (line + k) ps = (ofPieces line ps).later k := by
  intro ps
  induction ps with
  | nil => exact fun _ => rfl
  | cons p ps ih =>
    intro line
    have herror : p.error? (line + k) = (p.error? line).map (LexicalError.later k) := by
      rw [Piece.error?, Piece.error?, Option.map_map]
      rfl
    rw [ofPieces, ofPieces, Piece.lineAfter_add, ih, token?_later, herror, Option.toList_map,
      Option.toList_map, later, later, List.map_append, List.map_append]

/-! ### The seam -/

theorem exists_error_of_mem {p : Piece} {fault : LexicalFault} (hfault : p.fault? = some fault) :
    ∀ (ps : List Piece) (line : Int32), p ∈ ps →
      ∃ e ∈ (ofPieces line ps).errors, e.fault = fault := by
  intro ps
  induction ps with
  | nil => exact fun _ h => (List.not_mem_nil h).elim
  | cons q ps ih =>
    intro line hp
    rw [ofPieces]
    obtain rfl | hp := List.mem_cons.mp hp
    · refine ⟨⟨fault, line⟩, List.mem_append_left _ ?_, rfl⟩
      rw [Piece.error?, hfault]
      exact List.mem_singleton_self _
    · obtain ⟨e, he, heq⟩ := ih _ hp
      exact ⟨e, List.mem_append_right _ he, heq⟩

theorem endsBefore_of_closed {source : String} (hcomment : (scan source).openComment = false)
    (hstring : ∀ e ∈ (scan source).errors, e.fault ≠ .unterminatedString) :
    ∀ p ∈ Piece.split source.toList, p.EndsBefore '\n' := by
  intro p hp
  cases p with
  | openString text =>
    obtain ⟨e, he, hfault⟩ := exists_error_of_mem rfl _ 1 hp
    exact hstring e he hfault
  | openComment text =>
    rw [scan, openComment_ofPieces_eq_false] at hcomment
    cases hcomment _ hp
  | lineComment text => exact rfl
  | _ => trivial

theorem join_eq {first : String} (second : String)
    (h : ∀ p ∈ Piece.split first.toList, p.EndsBefore '\n') :
    let rest := (scan second).later (Int32.ofNat (1 + first.toList.count '\n'))
    scan (first ++ "\n" ++ second) =
      ⟨words 1 (Piece.split first.toList) ++ rest.tokens, (scan first).errors ++ rest.errors,
        (scan first).openComment || rest.openComment⟩ := by
  intro rest
  -- The second text is scanned from the line after the line feed.
  have hrest : ofPieces (Piece.lineAfterEach 1 (Piece.split first.toList))
      (Piece.blank '\n' :: Piece.split second.toList) = rest := by
    rw [ofPieces, Piece.lineAfter_seam, ofPieces_add]
    rfl
  rw [scan, toList_join, Piece.split_append rfl _ _ h, ofPieces_append, hrest]
  rfl

end Scan

/-- **Scanning is compositional at line feeds,** errors included.  If the first text ends neither in
a string nor in a comment, the two texts with a line feed between them have the tokens of the first
without its end of input, and then those of the second, and likewise the errors; what comes from the
second text is further down by one line and the lines of the first, and no line is lost to the size
of a word. -/
theorem scan_join (first second : String) (hcomment : (scan first).openComment = false)
    (hstring : ∀ e ∈ (scan first).errors, e.fault ≠ .unterminatedString)
    (hlines : (first ++ "\n" ++ second).toList.count '\n' < 2147483647) :
    let joined := scan (first ++ "\n" ++ second)
    let n := 1 + first.toList.count '\n'
    (∃ words eof, (scan first).tokens = words ++ [eof] ∧ eof.kind = .eof ∧
      joined.tokens = words ++ (scan second).tokens.map (Token.later (Int32.ofNat n))) ∧
    joined.errors =
      (scan first).errors ++ (scan second).errors.map (LexicalError.later (Int32.ofNat n)) ∧
    joined.openComment = (scan second).openComment ∧
    (∀ t ∈ (scan second).tokens, (t.later (Int32.ofNat n)).line.toInt = t.line.toInt + n) ∧
    ∀ e ∈ (scan second).errors, (e.later (Int32.ofNat n)).line.toInt = e.line.toInt + n := by
  intro joined n
  have hfits : second.toList.count '\n' + n < 2147483647 := by
    rw [toList_join, List.count_append, List.count_cons_self] at hlines
    omega
  have hsecond : second.toList.count '\n' < 2147483647 := by omega
  have hjoined := Scan.join_eq second (Scan.endsBefore_of_closed hcomment hstring)
  refine ⟨⟨_, _, Scan.tokens_ofPieces _ 1, rfl, ?_⟩, ?_, ?_, fun t ht => ?_, fun e he => ?_⟩
  · exact congrArg Scan.tokens hjoined
  · exact congrArg Scan.errors hjoined
  · rw [congrArg Scan.openComment hjoined, hcomment]
    rfl
  · exact (Scan.stands_of_mem_tokens hsecond ht).onLine.toInt_add hfits
  · exact (Scan.onLine_of_mem_errors hsecond he).toInt_add hfits

/-- A line comment and stray characters stand before the line feed, an open string after it. -/
theorem scan_join_stray :
    let first := "a\n@ // b"
    let second := "# \"c"
    ((scan first).openComment = false ∧
      (∀ e ∈ (scan first).errors, e.fault ≠ .unterminatedString) ∧
      (first ++ "\n" ++ second).toList.count '\n' < 2147483647) ∧
    (scan (first ++ "\n" ++ second)).errors = (scan first).errors ++
      [⟨.unexpectedCharacter, 3⟩, ⟨.unterminatedString, 3⟩] := by
  intro first second
  have hcomment : (scan first).openComment = false := by decide +kernel
  have hstring : ∀ e ∈ (scan first).errors, e.fault ≠ .unterminatedString := by decide +kernel
  have hlines : (first ++ "\n" ++ second).toList.count '\n' < 2147483647 := by decide +kernel
  have hsecond : (scan second).errors =
      [⟨.unexpectedCharacter, 1⟩, ⟨.unterminatedString, 1⟩] := by decide +kernel
  obtain ⟨-, herrors, -⟩ := scan_join first second hcomment hstring hlines
  refine ⟨⟨hcomment, hstring, hlines⟩, ?_⟩
  rw [herrors, hsecond]
  decide +kernel

end Lox
