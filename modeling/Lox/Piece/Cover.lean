import Lox.Piece

/-!
# The pieces of a text cover it

Main statement: the characters of the pieces of a text, one piece after the other, are the text.
-/

namespace Lox

namespace Piece

/-! ### One piece -/

theorem chars_number_ne {whole fraction : List Char} (h : fraction ≠ []) :
    (number whole fraction).chars = whole ++ '.' :: fraction := by
  cases fraction with
  | nil => exact absurd rfl h
  | cons c cs => rfl

theorem closeComment?_append {cs text rest : List Char}
    (h : closeComment? cs = some (text, rest)) : text ++ '*' :: '/' :: rest = cs := by
  fun_induction closeComment? cs generalizing text with
  | case1 rest => simp_all
  | case2 c cs _ ih =>
    obtain ⟨⟨t, r⟩, hr, heq⟩ := Option.map_eq_some_iff.1 h
    cases heq
    rw [List.cons_append, ih hr]
  | case3 => cases h

theorem chars_comment_append (cs : List Char) :
    (comment cs).1.chars ++ (comment cs).2 = '/' :: '*' :: cs := by
  unfold comment
  split
  · next text rest h =>
    have := closeComment?_append h
    simp [chars, this]
  · simp [chars]

theorem chars_quoted_append (cs : List Char) :
    (quoted cs).1.chars ++ (quoted cs).2 = '"' :: cs := by
  have h := List.takeWhile_append_dropWhile (p := (· ≠ '"')) (l := cs)
  unfold quoted
  split
  · next c rest hd =>
    have hc : c = '"' := by
      have := List.head?_dropWhile_not (· ≠ '"') cs
      rw [hd] at this
      simpa using this
    rw [hd, hc] at h
    simp only [chars, List.cons_append, List.append_assoc, List.nil_append, h]
  · simp [chars]

theorem chars_numeral_append (whole cs : List Char) :
    (numeral whole cs).1.chars ++ (numeral whole cs).2 = whole ++ cs := by
  unfold numeral
  split
  · next rest =>
    have h := List.takeWhile_append_dropWhile (p := Decimal.isDigit) (l := rest)
    split
    · simp [chars]
    · next hne =>
      simp only
      rw [chars_number_ne hne, List.append_assoc, List.cons_append, h]
  · simp [chars]

theorem spelling_of_ofSpelling? {cs : List Char} {s : Symbol}
    (h : Symbol.ofSpelling? cs = some s) : s.spelling = cs := by
  simpa using List.find?_some h

theorem chars_symbolOrStray_append (c : Char) (cs : List Char) :
    (symbolOrStray c cs).1.chars ++ (symbolOrStray c cs).2 = c :: cs := by
  unfold symbolOrStray
  split
  · next s rest h =>
    cases cs with
    | nil =>
      obtain ⟨t, ht, heq⟩ := Option.map_eq_some_iff.1 h
      cases heq
      simp [chars, spelling_of_ofSpelling? ht]
    | cons d cs =>
      simp only [Symbol.split?] at h
      split at h
      · next t ht =>
        cases h
        simp [chars, spelling_of_ofSpelling? ht]
      · obtain ⟨t, ht, heq⟩ := Option.map_eq_some_iff.1 h
        cases heq
        simp [chars, spelling_of_ofSpelling? ht]
  · simp [chars]

/-- **The first piece and the text after it make up the text.** -/
theorem chars_next_append (c : Char) (cs : List Char) :
    (next c cs).1.chars ++ (next c cs).2 = c :: cs := by
  unfold next
  split
  · simp [chars]
  split
  · next h => rw [chars_quoted_append, h]
  split
  · rw [chars_numeral_append, List.cons_append, List.takeWhile_append_dropWhile]
  split
  · simp [chars, List.takeWhile_append_dropWhile]
  split
  · simp only [chars, List.cons_append, List.takeWhile_append_dropWhile]
  · exact chars_comment_append _
  · exact chars_symbolOrStray_append _ _

/-! ### All pieces -/

/-- **Nothing is lost:** the pieces of a text, one after the other, are the text. -/
@[simp]
theorem flatMap_chars_split (cs : List Char) : (split cs).flatMap chars = cs := by
  fun_induction split cs with
  | case1 => rfl
  | case2 c cs r ih => rw [List.flatMap_cons, ih, chars_next_append]

end Piece

end Lox
