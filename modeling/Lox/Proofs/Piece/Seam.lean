import Lox.Piece.Cover

/-!
# Pieces before a blank

A blank ends every piece before it, except a string or a comment that is still open.  So the pieces
of a text, a blank and another text are those of the one text, the blank, and those of the other
(`split_append`).
-/

namespace Lox

namespace Piece

/-- The piece ends where the given blank follows it. -/
def EndsBefore (b : Char) : Piece → Prop
  | openString _ => False
  | openComment _ => False
  | lineComment _ => b = '\n'
  | _ => True

variable {b : Char}

/-! ### Blanks -/

theorem eq_of_isBlank (hb : isBlank b = true) : b = ' ' ∨ b = '\r' ∨ b = '\t' ∨ b = '\n' := by
  simpa [isBlank, or_assoc] using hb

theorem isDigit_of_isBlank (hb : isBlank b = true) : Decimal.isDigit b = false := by
  rcases eq_of_isBlank hb with h | h | h | h <;> subst h <;> decide

theorem isWordChar_of_isBlank (hb : isBlank b = true) : isWordChar b = false := by
  rcases eq_of_isBlank hb with h | h | h | h <;> subst h <;> decide

theorem isDigit_of_isWordStart {c : Char} (h : isWordStart c = true) :
    Decimal.isDigit c = false := by
  simp only [isWordStart, Char.le_def, UInt32.le_iff_toNat_le, Bool.or_eq_true, Bool.and_eq_true,
    decide_eq_true_eq] at h
  simp only [Decimal.isDigit, Char.le_def, UInt32.le_iff_toNat_le, Bool.and_eq_false_iff,
    decide_eq_false_iff_not]
  have h9 : '9'.val.toNat = 57 := rfl
  have ha : 'a'.val.toNat = 97 := rfl
  have hA : 'A'.val.toNat = 65 := rfl
  rcases h with (h | h) | h
  · omega
  · omega
  · subst h
    exact .inr (by decide)

theorem any_isBlank_spelling (s : Symbol) : s.spelling.any isBlank = false := by
  cases s <;> rfl

theorem ofSpelling?_blank (hb : isBlank b = true) (c : Char) :
    Symbol.ofSpelling? [c, b] = none := by
  cases h : Symbol.ofSpelling? [c, b] with
  | none => rfl
  | some s =>
    have hmem : b ∈ s.spelling := by
      rw [spelling_of_ofSpelling? h]
      simp
    exact absurd hb (List.any_eq_false.mp (any_isBlank_spelling s) b hmem)

/-! ### What the first characters say -/

section

variable {c : Char} {cs : List Char}

theorem next_blank (h : isBlank c = true) : next c cs = (blank c, cs) := by
  unfold next
  rw [if_pos h]

theorem next_quote : next '"' cs = quoted cs := rfl

theorem next_line : next '/' ('/' :: cs) =
    (lineComment (cs.takeWhile (· ≠ '\n')), cs.dropWhile (· ≠ '\n')) := rfl

theorem next_comment : next '/' ('*' :: cs) = comment cs := rfl

theorem next_digit (h : Decimal.isDigit c = true) : next c cs =
    numeral (c :: cs.takeWhile Decimal.isDigit) (cs.dropWhile Decimal.isDigit) := by
  have hblank : ¬isBlank c = true := by
    intro hb
    rw [isDigit_of_isBlank hb] at h
    cases h
  have hquote : c ≠ '"' := by
    rintro rfl
    cases h
  unfold next
  rw [if_neg hblank, if_neg hquote, if_pos h]

theorem next_word (h : isWordStart c = true) : next c cs =
    (word (c :: cs.takeWhile isWordChar), cs.dropWhile isWordChar) := by
  have hblank : ¬isBlank c = true := by
    intro hb
    have hchar := isWordChar_of_isBlank hb
    rw [isWordChar, h] at hchar
    cases hchar
  have hquote : c ≠ '"' := by
    rintro rfl
    cases h
  have hdigit : ¬Decimal.isDigit c = true := by
    rw [isDigit_of_isWordStart h]
    exact Bool.false_ne_true
  unfold next
  rw [if_neg hblank, if_neg hquote, if_neg hdigit, if_pos h]

theorem next_symbol (hblank : ¬isBlank c = true) (hquote : c ≠ '"')
    (hdigit : ¬Decimal.isDigit c = true) (hword : ¬isWordStart c = true)
    (h : ∀ d ∈ cs.head?, ¬(c = '/' ∧ (d = '/' ∨ d = '*'))) : next c cs = symbolOrStray c cs := by
  unfold next
  rw [if_neg hblank, if_neg hquote, if_neg hdigit, if_neg hword]
  split
  · exact absurd ⟨rfl, .inl rfl⟩ (h '/' rfl)
  · exact absurd ⟨rfl, .inr rfl⟩ (h '*' rfl)
  · rfl

end

/-! ### One piece -/

theorem takeWhile_append_cons {p : Char → Bool} (hp : p b = false) (rest : List Char) :
    ∀ cs : List Char, (cs ++ b :: rest).takeWhile p = cs.takeWhile p := by
  intro cs
  induction cs with
  | nil => simp [hp]
  | cons c cs ih =>
    rw [List.cons_append, List.takeWhile_cons, List.takeWhile_cons, ih]

theorem dropWhile_append_cons {p : Char → Bool} (hp : p b = false) (rest : List Char) :
    ∀ cs : List Char, (cs ++ b :: rest).dropWhile p = cs.dropWhile p ++ b :: rest := by
  intro cs
  induction cs with
  | nil => simp [hp]
  | cons c cs ih =>
    rw [List.cons_append, List.dropWhile_cons, List.dropWhile_cons, ih]
    by_cases hc : p c = true
    · rw [if_pos hc, if_pos hc]
    · rw [if_neg hc, if_neg hc, List.cons_append]

theorem closeComment?_append_of_eq {cs text rest : List Char} (after : List Char)
    (h : closeComment? cs = some (text, rest)) :
    closeComment? (cs ++ after) = some (text, rest ++ after) := by
  fun_induction closeComment? cs generalizing text with
  | case1 rest' =>
    cases h
    rfl
  | case2 c cs hc ih =>
    obtain ⟨⟨text', rest'⟩, hcs, heq⟩ := Option.map_eq_some_iff.1 h
    cases heq
    -- The rest of the comment is not empty, so its first character still follows `c`.
    cases cs with
    | nil => cases hcs
    | cons d cs =>
      rw [List.cons_append, List.cons_append, closeComment?, ← List.cons_append, ih hcs]
      · rfl
      · intro rest'' hstar hslash
        exact hc cs hstar (by rw [(List.cons.inj hslash).1])
  | case3 => cases h

theorem comment_append {cs : List Char} (after : List Char)
    (h : (comment cs).1.EndsBefore b) :
    comment (cs ++ after) = ((comment cs).1, (comment cs).2 ++ after) := by
  unfold comment at h ⊢
  cases hclose : closeComment? cs with
  | none =>
    rw [hclose] at h
    exact absurd h id
  | some r => rw [closeComment?_append_of_eq after hclose]

theorem quoted_append {cs : List Char} (after : List Char) (h : (quoted cs).1.EndsBefore b) :
    quoted (cs ++ after) = ((quoted cs).1, (quoted cs).2 ++ after) := by
  unfold quoted at h ⊢
  cases hdrop : cs.dropWhile (· ≠ '"') with
  | nil =>
    rw [hdrop] at h
    exact absurd h id
  | cons q rest =>
    have hq : decide (q ≠ '"') = false := by
      have hhead := List.head?_dropWhile_not (· ≠ '"') cs
      rw [hdrop] at hhead
      simpa using hhead
    have hcs : cs = cs.takeWhile (· ≠ '"') ++ q :: rest := by
      rw [← hdrop, List.takeWhile_append_dropWhile]
    have htake : (cs ++ after).takeWhile (· ≠ '"') = cs.takeWhile (· ≠ '"') := by
      rw [hcs, List.append_assoc, List.cons_append, takeWhile_append_cons hq,
        takeWhile_append_cons hq]
    have hdrop' : (cs ++ after).dropWhile (· ≠ '"') = q :: (rest ++ after) := by
      rw [List.dropWhile_append, hdrop]
      rfl
    rw [htake, hdrop']

theorem numeral_append (whole cs rest : List Char) (hb : isBlank b = true) :
    numeral whole (cs ++ b :: rest) = ((numeral whole cs).1, (numeral whole cs).2 ++ b :: rest) := by
  have hdigit := isDigit_of_isBlank hb
  have hdot : b ≠ '.' := by
    rcases eq_of_isBlank hb with h | h | h | h <;> subst h <;> decide
  cases cs with
  | nil =>
    unfold numeral
    split
    · next hcons =>
      exact absurd (List.cons.inj hcons).1 hdot
    · rfl
  | cons c cs =>
    by_cases hc : c = '.'
    · subst hc
      rw [List.cons_append, numeral, numeral, takeWhile_append_cons hdigit,
        dropWhile_append_cons hdigit]
      split
      · rfl
      · rfl
    · rw [List.cons_append, numeral, numeral]
      · rfl
      · intro rest' hcons
        exact hc (List.cons.inj hcons).1
      · intro rest' hcons
        exact hc (List.cons.inj hcons).1

theorem symbolOrStray_append (c : Char) (cs rest : List Char) (hb : isBlank b = true) :
    symbolOrStray c (cs ++ b :: rest) =
      ((symbolOrStray c cs).1, (symbolOrStray c cs).2 ++ b :: rest) := by
  unfold symbolOrStray
  cases cs with
  | nil =>
    rw [List.nil_append, Symbol.split?, ofSpelling?_blank hb, Symbol.split?]
    cases Symbol.ofSpelling? [c] with
    | none => rfl
    | some s => rfl
  | cons d cs =>
    rw [List.cons_append, Symbol.split?, Symbol.split?]
    cases Symbol.ofSpelling? [c, d] with
    | some s => rfl
    | none =>
      cases Symbol.ofSpelling? [c] with
      | none => rfl
      | some s => rfl

/-- **A blank does not change the piece before it.** -/
theorem next_append {c : Char} {cs : List Char} (rest : List Char) (hb : isBlank b = true)
    (h : (next c cs).1.EndsBefore b) :
    next c (cs ++ b :: rest) = ((next c cs).1, (next c cs).2 ++ b :: rest) := by
  by_cases hblank : isBlank c = true
  · rw [next_blank hblank, next_blank hblank]
  by_cases hquote : c = '"'
  · subst hquote
    rw [next_quote] at h ⊢
    rw [next_quote, quoted_append _ h]
  by_cases hdigit : Decimal.isDigit c = true
  · rw [next_digit hdigit, next_digit hdigit, takeWhile_append_cons (isDigit_of_isBlank hb),
      dropWhile_append_cons (isDigit_of_isBlank hb), numeral_append _ _ _ hb]
  by_cases hword : isWordStart c = true
  · rw [next_word hword, next_word hword, takeWhile_append_cons (isWordChar_of_isBlank hb),
      dropWhile_append_cons (isWordChar_of_isBlank hb)]
  cases cs with
  | nil =>
    have hslash : b ≠ '/' ∧ b ≠ '*' := by
      rcases eq_of_isBlank hb with h | h | h | h <;> subst h <;> decide
    rw [List.nil_append, next_symbol hblank hquote hdigit hword (by simp [hslash]),
      next_symbol hblank hquote hdigit hword (by simp)]
    exact symbolOrStray_append c [] rest hb
  | cons d cs =>
    by_cases hline : c = '/' ∧ d = '/'
    · obtain ⟨rfl, rfl⟩ := hline
      rw [next_line] at h ⊢
      obtain rfl : b = '\n' := h
      rw [List.cons_append, next_line, takeWhile_append_cons (by decide),
        dropWhile_append_cons (by decide)]
    by_cases hcomment : c = '/' ∧ d = '*'
    · obtain ⟨rfl, rfl⟩ := hcomment
      rw [next_comment] at h ⊢
      rw [List.cons_append, next_comment, comment_append _ h]
    have hd : ∀ x ∈ (d :: cs).head?, ¬(c = '/' ∧ (x = '/' ∨ x = '*')) := by
      intro x hx hc
      obtain rfl : d = x := Option.some.inj hx
      rcases hc.2 with hx | hx
      · exact hline ⟨hc.1, hx⟩
      · exact hcomment ⟨hc.1, hx⟩
    rw [next_symbol hblank hquote hdigit hword hd, ← symbolOrStray_append c (d :: cs) rest hb,
      List.cons_append]
    exact next_symbol hblank hquote hdigit hword hd

/-- **The pieces before and after a blank do not depend on one another.** -/
theorem split_append (hb : isBlank b = true) (rest : List Char) : ∀ cs : List Char,
    (∀ p ∈ split cs, p.EndsBefore b) →
      split (cs ++ b :: rest) = split cs ++ blank b :: split rest := by
  intro cs
  fun_induction split cs with
  | case1 =>
    intro _
    rw [List.nil_append, split, next_blank hb, List.nil_append]
  | case2 c cs r ih =>
    intro h
    rw [List.forall_mem_cons] at h
    rw [List.cons_append, split, next_append rest hb h.1, List.cons_append]
    exact congrArg (r.1 :: ·) (ih h.2)

end Piece

end Lox
