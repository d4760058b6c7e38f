import Lox.Program
import Lox.Proofs.Piece.Seam
import Lox.Token.Scan

/-!
# The lines of tokens

Tokens that stand further down in a text are the same tokens on later lines (`words_add`), and the
tokens of two texts with a line feed between them are those of the first and, on later lines, those
of the second (`words_join`).  In a text of fewer lines than the largest number of a line, lines are
not only counted modulo the size of a word (`line_of_mem_words`).
-/

namespace Lox

/-- A line that fits into a word, as a number. -/
theorem toInt_one_add_ofNat {n : Nat} (h : n < 2147483647) :
    (1 + Int32.ofNat n).toInt = (1 + n : Nat) := by
  have hone : 1 + Int32.ofNat n = Int32.ofNat (1 + n) := by
    rw [Int32.ofNat_add]
    rfl
  rw [hone, Int32.toInt_ofNat_of_lt (by omega)]

theorem toList_join (A B : String) : (A ++ "\n" ++ B).toList = A.toList ++ '\n' :: B.toList := by
  simp [String.toList_append]

namespace Token

/-- The token, a number of lines further down. -/
def later (k : Int32) (t : Token) : Token := ⟨t.kind, t.lexeme, t.line + k⟩

end Token

namespace Piece

/-- The line after all of the pieces, the first of which starts on the given line. -/
def lineAfterEach (line : Int32) (ps : List Piece) : Int32 := ps.foldl lineAfter line

/-- The number of line feeds in pieces. -/
def newlinesOf (ps : List Piece) : Nat := (ps.flatMap chars).count '\n'

@[simp]
theorem newlinesOf_cons (p : Piece) (ps : List Piece) :
    newlinesOf (p :: ps) = p.newlines + newlinesOf ps := by
  rw [newlinesOf, List.flatMap_cons, List.count_append]
  rfl

@[simp]
theorem newlinesOf_split (cs : List Char) : newlinesOf (split cs) = cs.count '\n' := by
  rw [newlinesOf, flatMap_chars_split]

theorem lineAfter_add (line k : Int32) (p : Piece) :
    p.lineAfter (line + k) = p.lineAfter line + k := by
  rw [lineAfter, lineAfter, Int32.add_assoc, Int32.add_comm k, Int32.add_assoc]

theorem lineAfterEach_eq : ∀ (line : Int32) (ps : List Piece),
    lineAfterEach line ps = line + Int32.ofNat (newlinesOf ps) := by
  intro line ps
  induction ps generalizing line with
  | nil => exact (Int32.add_zero line).symm
  | cons p ps ih =>
    rw [newlinesOf_cons, Int32.ofNat_add, ← Int32.add_assoc]
    exact ih (p.lineAfter line)

/-- The line after a text and a line feed. -/
theorem lineAfter_seam (cs : List Char) :
    (blank '\n').lineAfter (lineAfterEach 1 (split cs)) = 1 + Int32.ofNat (1 + cs.count '\n') := by
  rw [lineAfterEach_eq, newlinesOf_split, lineAfter, Nat.add_comm 1, Int32.ofNat_add,
    Int32.add_assoc]
  rfl

theorem isEof_of_token? {line : Int32} {p : Piece} {t : Token} (h : p.token? line = some t) :
    t.isEof = false := by
  obtain ⟨k, hk, rfl⟩ := Option.map_eq_some_iff.1 h
  unfold kind? at hk
  split at hk
  · cases hk
    rfl
  · cases hk
    rfl
  · split at hk
    · cases hk
      rfl
    · cases hk
      rfl
  · cases hk
    rfl
  · cases hk

end Piece

namespace Scan

/-! ### Tokens before the end of the input -/

/-- The tokens of pieces that start on the given line, the end of the input left out. -/
def words (line : Int32) : List Piece → List Token
  | [] => []
  | p :: ps => (p.token? (p.lineAfter line)).toList ++ words (p.lineAfter line) ps

theorem tokens_ofPieces : ∀ (ps : List Piece) (line : Int32), (ofPieces line ps).tokens =
    words line ps ++ [⟨.eof, "", Piece.lineAfterEach line ps⟩] := by
  intro ps
  induction ps with
  | nil => exact fun _ => rfl
  | cons p ps ih =>
    intro line
    rw [words, List.append_assoc, ofPieces]
    exact congrArg ((p.token? (p.lineAfter line)).toList ++ ·) (ih (p.lineAfter line))

theorem words_append : ∀ (ps qs : List Piece) (line : Int32),
    words line (ps ++ qs) = words line ps ++ words (Piece.lineAfterEach line ps) qs := by
  intro ps qs
  induction ps with
  | nil => exact fun _ => rfl
  | cons p ps ih =>
    intro line
    rw [List.cons_append, words, words, ih, List.append_assoc]
    rfl

theorem token?_later (k line : Int32) (p : Piece) :
    p.token? (line + k) = (p.token? line).map (Token.later k) := by
  unfold Piece.token?
  rw [Option.map_map]
  rfl

/-- **Further down stand the same tokens on later lines.** -/
theorem words_add (k : Int32) : ∀ (ps : List Piece) (line : Int32),
    words (line + k) ps = (words line ps).map (Token.later k) := by
  intro ps
  induction ps with
  | nil => exact fun _ => rfl
  | cons p ps ih =>
    intro line
    rw [words, words, Piece.lineAfter_add, ih, token?_later, List.map_append]
    cases p.token? (p.lineAfter line) <;> rfl

theorem line_of_mem_words : ∀ (ps : List Piece) (line : Int32) {t : Token}, t ∈ words line ps →
    ∃ n, n ≤ Piece.newlinesOf ps ∧ t.line = line + Int32.ofNat n := by
  intro ps
  induction ps with
  | nil =>
    intro line t ht
    exact absurd ht (by simp [words])
  | cons p ps ih =>
    intro line t ht
    rw [words, List.mem_append] at ht
    rw [Piece.newlinesOf_cons]
    rcases ht with ht | ht
    · refine ⟨p.newlines, by omega, ?_⟩
      obtain ⟨k, -, rfl⟩ := Option.map_eq_some_iff.1 (Option.mem_toList.1 ht)
      rfl
    · obtain ⟨n, hn, hline⟩ := ih (p.lineAfter line) ht
      refine ⟨p.newlines + n, by omega, ?_⟩
      rw [hline, Piece.lineAfter, Int32.ofNat_add, Int32.add_assoc]

/-- Lines that fit into a word are added without a carry. -/
theorem toInt_line_later {ps : List Piece} {t : Token} (ht : t ∈ words 1 ps) {n : Nat}
    (hn : Piece.newlinesOf ps + n < 2147483647) :
    (t.later (Int32.ofNat n)).line.toInt = t.line.toInt + n := by
  obtain ⟨k, hk, hline⟩ := line_of_mem_words ps 1 ht
  have hone : t.line = Int32.ofNat (1 + k) := by
    rw [hline, Int32.ofNat_add]
    rfl
  rw [Token.later, hone, ← Int32.ofNat_add, Int32.toInt_ofNat_of_lt (by omega),
    Int32.toInt_ofNat_of_lt (by omega)]
  omega

/-- **A line feed keeps the tokens of two texts apart.** -/
theorem words_join {as : List Char} (bs : List Char) (h : ∀ p ∈ Piece.split as, p.EndsBefore '\n') :
    words 1 (Piece.split (as ++ '\n' :: bs)) = words 1 (Piece.split as) ++
      (words 1 (Piece.split bs)).map (Token.later (Int32.ofNat (1 + as.count '\n'))) := by
  rw [Piece.split_append rfl bs as h, words_append, words, Piece.lineAfter_seam, words_add]
  rfl

theorem isEof_of_mem_words : ∀ (ps : List Piece) (line : Int32), ∀ t ∈ words line ps,
    t.isEof = false := by
  intro ps
  induction ps with
  | nil => exact fun _ _ h => (List.not_mem_nil h).elim
  | cons p ps ih =>
    intro line t ht
    rw [words, List.mem_append] at ht
    rcases ht with ht | ht
    · exact Piece.isEof_of_token? (Option.mem_toList.1 ht)
    · exact ih _ t ht

/-- The tokens that are read as a program. -/
theorem body_scan (source : String) :
    Program.body (scan source).tokens = words 1 (Piece.split source.toList) := by
  have hwords : ∀ t ∈ words 1 (Piece.split source.toList), (!t.isEof) = true := by
    intro t ht
    rw [isEof_of_mem_words _ _ t ht]
    rfl
  rw [scan, tokens_ofPieces, Program.body, List.takeWhile_append_of_pos hwords]
  exact List.append_nil _

/-! ### Errors and open comments -/

theorem errors_ofPieces_eq_nil : ∀ (ps : List Piece) (line : Int32),
    (ofPieces line ps).errors = [] ↔ ∀ p ∈ ps, p.fault? = none := by
  intro ps
  induction ps with
  | nil => exact fun _ => ⟨fun _ _ h => (List.not_mem_nil h).elim, fun _ => rfl⟩
  | cons p ps ih =>
    intro line
    rw [ofPieces, List.append_eq_nil_iff, List.forall_mem_cons, ih]
    simp [Piece.error?]

theorem openComment_ofPieces_eq_false : ∀ (ps : List Piece) (line : Int32),
    (ofPieces line ps).openComment = false ↔ ∀ p ∈ ps, p.isOpenComment = false := by
  intro ps
  induction ps with
  | nil => exact fun _ => ⟨fun _ _ h => (List.not_mem_nil h).elim, fun _ => rfl⟩
  | cons p ps ih =>
    intro line
    rw [ofPieces, Bool.or_eq_false_iff, List.forall_mem_cons, ih]

end Scan

end Lox
