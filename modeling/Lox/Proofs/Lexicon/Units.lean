import Lox.Proofs.Lexicon
import Lox.Proofs.Piece.Seam
import Lox.Token.Scan
import Mathlib.Data.List.TakeWhile

/-!
# Pieces are units

The piece that a text is read to start with is the unit that it starts with, and there is only one
(`isUnit_iff`).  For numbers, words and symbols this rests on there being only one longest text of a
class; for comments and strings, on their being closed at the first place where they can be.
-/

namespace Lox

namespace Lexicon

/-! ### Classes of characters -/

theorem isDigit_iff {c : Char} : Decimal.isDigit c = true ↔ Digit c := by
  simp [Decimal.isDigit, Digit]

theorem isWordStart_iff {c : Char} : Piece.isWordStart c = true ↔ Letter c := by
  simp only [Piece.isWordStart, Letter, Bool.or_eq_true, Bool.and_eq_true, decide_eq_true_eq]
  rw [or_assoc, or_left_comm]

theorem isWordChar_iff {c : Char} : Piece.isWordChar c = true ↔ Letter c ∨ Digit c := by
  rw [Piece.isWordChar, Bool.or_eq_true, isWordStart_iff, isDigit_iff]

theorem isBlank_iff {c : Char} : Piece.isBlank c = true ↔ c ∈ [' ', '\r', '\t', '\n'] := by
  simp [Piece.isBlank, or_assoc]

/-! ### Longest texts -/

/-- **There is only one longest text of a class.** -/
theorem Longest.unique {P : List Char → Prop} {text text' rest rest' : List Char}
    (h : Longest P text rest) (h' : Longest P text' rest') (heq : text ++ rest = text' ++ rest') :
    text = text' ∧ rest = rest' := by
  have hle := h.length_le text' (heq ▸ List.prefix_append text' rest') h'.holds
  have hle' := h'.length_le text (heq ▸ List.prefix_append text rest) h.holds
  exact List.append_inj heq (Nat.le_antisymm hle' hle)

/-- A text with all its characters in a class is no longer than the longest one. -/
theorem length_le_takeWhile {p : Char → Bool} {t cs : List Char} (h : t <+: cs)
    (ht : ∀ c ∈ t, p c = true) : t.length ≤ (cs.takeWhile p).length := by
  obtain ⟨more, rfl⟩ := h
  rw [List.takeWhile_append_of_pos ht, List.length_append]
  exact Nat.le_add_right _ _

theorem longest_word {c : Char} (cs : List Char) (hc : Piece.isWordStart c = true) :
    Longest Word (c :: cs.takeWhile Piece.isWordChar) (cs.dropWhile Piece.isWordChar) where
  holds := .mk (isWordStart_iff.mp hc) fun _ hd => isWordChar_iff.mp (List.mem_takeWhile_imp hd)
  length_le t ht hword := by
    rw [List.cons_append, List.takeWhile_append_dropWhile] at ht
    cases hword with
    | mk hd hds =>
      obtain ⟨-, ht⟩ := List.cons_prefix_cons.mp ht
      exact Nat.succ_le_succ
        (length_le_takeWhile ht fun d hd => isWordChar_iff.mpr (hds d hd))

/-! ### Numbers -/

theorem digits_iff {ds : List Char} :
    Digits ds ↔ ds ≠ [] ∧ ∀ d ∈ ds, Decimal.isDigit d = true := by
  simp only [Digits, isDigit_iff]

/-- A numeral at the front of a text has no more digits before its point than the text has. -/
theorem Numeral.cases_prefix {t cs : List Char} (h : Numeral t) (ht : t <+: cs) :
    t.length ≤ (cs.takeWhile Decimal.isDigit).length ∨
      ∃ es rest : List Char, cs.dropWhile Decimal.isDigit = '.' :: rest ∧ es ≠ [] ∧
        es.length ≤ (rest.takeWhile Decimal.isDigit).length ∧
        t.length = (cs.takeWhile Decimal.isDigit).length + 1 + es.length := by
  cases h with
  | whole hds => exact .inl (length_le_takeWhile ht (digits_iff.mp hds).2)
  | @fraction ds es hds hes =>
    right
    obtain ⟨more, rfl⟩ := ht
    have hds := (digits_iff.mp hds).2
    have hes := digits_iff.mp hes
    have hdot : Decimal.isDigit '.' = false := rfl
    rw [List.append_assoc, List.takeWhile_append_of_pos hds, List.dropWhile_append_of_pos hds,
      List.cons_append, List.takeWhile_cons_of_neg (by simp [hdot]),
      List.dropWhile_cons_of_neg (by simp [hdot]), List.append_nil]
    refine ⟨es, es ++ more, rfl, hes.1, length_le_takeWhile (List.prefix_append es more) hes.2, ?_⟩
    simp only [List.length_append, List.length_cons]
    omega

/-- The digits at the front of a text, and the point and digits after them, are its longest
numeral. -/
theorem longest_numeral (cs : List Char) (h : cs.takeWhile Decimal.isDigit ≠ []) :
    Longest Numeral
      (Piece.numeral (cs.takeWhile Decimal.isDigit) (cs.dropWhile Decimal.isDigit)).1.chars
      (Piece.numeral (cs.takeWhile Decimal.isDigit) (cs.dropWhile Decimal.isDigit)).2 := by
  have hwhole : Digits (cs.takeWhile Decimal.isDigit) :=
    digits_iff.mpr ⟨h, fun _ hd => List.mem_takeWhile_imp hd⟩
  refine ⟨?_, fun t ht hnumeral => ?_⟩
  · unfold Piece.numeral
    split
    · next rest _ =>
      split
      · exact .whole hwhole
      · next hne =>
        rw [Piece.chars_number_ne hne]
        exact .fraction hwhole (digits_iff.mpr ⟨hne, fun _ hd => List.mem_takeWhile_imp hd⟩)
    · exact .whole hwhole
  · rw [Piece.chars_numeral_append, List.takeWhile_append_dropWhile] at ht
    obtain hle | ⟨es, rest, hdrop, hes, hle, hlength⟩ := hnumeral.cases_prefix ht
    · refine Nat.le_trans hle ?_
      unfold Piece.numeral
      split
      · split
        · exact Nat.le_refl _
        · next hne =>
          rw [Piece.chars_number_ne hne, List.length_append]
          exact Nat.le_add_right _ _
      · exact Nat.le_refl _
    · -- The text goes on with a point and a digit, so the number takes them too.
      have hne : rest.takeWhile Decimal.isDigit ≠ [] := by
        intro hnil
        rw [hnil] at hle
        exact hes (List.length_eq_zero_iff.mp (Nat.le_zero.mp hle))
      rw [hdrop, Piece.numeral]
      split
      · next hnil => exact absurd hnil hne
      · rw [Piece.chars_number_ne hne, hlength]
        simp only [List.length_append, List.length_cons]
        omega

theorem ofChars_of_isDigit {c : Char} (cs : List Char) (h : Decimal.isDigit c = true) :
    Number.ofChars (c :: cs) = (Decimal.ofChars (c :: cs)).toFloat := by
  have hne : ∀ d : Char, Decimal.isDigit d = false → c ≠ d := by
    rintro d hd rfl
    rw [h] at hd
    cases hd
  unfold Number.ofChars
  split
  · next heq => exact absurd (List.cons.inj heq).1 (hne '-' rfl)
  · rw [Number.ofChars.ofMagnitude,
      if_neg fun heq => hne 'N' rfl (List.cons.inj heq).1,
      if_neg fun heq => hne 'i' rfl (List.cons.inj heq).1]

/-- The digits of a number are those of its characters. -/
theorem ofChars_number {whole : List Char} (fraction : List Char)
    (h : ∀ d ∈ whole, Decimal.isDigit d = true) :
    Decimal.ofChars (Piece.number whole fraction).chars = Decimal.ofDigits whole fraction := by
  cases fraction with
  | nil =>
    rw [Decimal.ofChars, Piece.chars, List.takeWhile_eq_self_iff.mpr h,
      List.dropWhile_eq_nil_iff.mpr h]
    rfl
  | cons e es =>
    rw [Decimal.ofChars, Piece.chars, List.takeWhile_append_of_pos h,
      List.dropWhile_append_of_pos h, List.takeWhile_cons_of_neg (by decide),
      List.dropWhile_cons_of_neg (by decide), List.append_nil]
    · rfl
    · exact List.cons_ne_nil e es

/-! ### Comments and strings -/

theorem closeComment?_of_first {text : List Char} (rest : List Char)
    (h : ¬['*', '/'] <:+: text ++ ['*']) :
    Piece.closeComment? (text ++ '*' :: '/' :: rest) = some (text, rest) := by
  induction text with
  | nil => rfl
  | cons c text ih =>
    rw [List.cons_append, List.infix_cons_iff, not_or] at h
    rw [List.cons_append, Piece.closeComment?, ih h.2]
    · rfl
    · rintro rest' rfl heq
      cases text with
      | nil => cases heq
      | cons d text =>
        obtain rfl : d = '/' := (List.cons.inj heq).1
        exact h.1 ⟨text ++ ['*'], rfl⟩

theorem first_of_closeComment? {cs text rest : List Char}
    (h : Piece.closeComment? cs = some (text, rest)) : ¬['*', '/'] <:+: text ++ ['*'] := by
  fun_induction Piece.closeComment? cs generalizing text with
  | case1 rest =>
    cases h
    decide
  | case2 c cs hc ih =>
    obtain ⟨⟨text', rest'⟩, hcs, heq⟩ := Option.map_eq_some_iff.1 h
    cases heq
    rw [List.cons_append, List.infix_cons_iff, not_or]
    refine ⟨fun hprefix => ?_, ih hcs⟩
    -- Then the comment would have been closed at `c`.
    obtain ⟨rfl, hslash⟩ := List.cons_prefix_cons.mp hprefix
    cases text' with
    | nil => cases (List.cons_prefix_cons.mp hslash).1
    | cons d text' =>
      obtain ⟨rfl, -⟩ := List.cons_prefix_cons.mp hslash
      exact hc _ rfl (Piece.closeComment?_append hcs).symm
  | case3 => cases h

theorem closeComment?_eq_none_iff {cs : List Char} :
    Piece.closeComment? cs = none ↔ ¬['*', '/'] <:+: cs := by
  fun_induction Piece.closeComment? cs with
  | case1 rest => simpa using List.infix_append [] ['*', '/'] rest
  | case2 c cs hc ih =>
    rw [Option.map_eq_none_iff, ih, List.infix_cons_iff, not_or]
    refine ⟨fun h => ⟨fun hprefix => ?_, h⟩, And.right⟩
    obtain ⟨rest, heq⟩ := hprefix
    obtain ⟨rfl, rfl⟩ := List.cons.inj heq
    exact hc rest rfl rfl
  | case3 => simp

theorem quoted_of_closed {text : List Char} (rest : List Char) (h : '"' ∉ text) :
    Piece.quoted (text ++ '"' :: rest) = (.string text, rest) := by
  have htext : ∀ c ∈ text, decide (c ≠ '"') = true := by
    intro c hc
    exact decide_eq_true fun heq => h (heq ▸ hc)
  rw [Piece.quoted, List.takeWhile_append_of_pos htext, List.dropWhile_append_of_pos htext,
    List.takeWhile_cons_of_neg (by decide), List.dropWhile_cons_of_neg (by decide), List.append_nil]

theorem quoted_of_open {text : List Char} (h : '"' ∉ text) :
    Piece.quoted text = (.openString text, []) := by
  have hdrop : text.dropWhile (· ≠ '"') = [] := by
    rw [List.dropWhile_eq_nil_iff]
    intro c hc
    exact decide_eq_true fun heq => h (heq ▸ hc)
  rw [Piece.quoted, hdrop]

theorem not_mem_takeWhile_ne (c : Char) (cs : List Char) : c ∉ cs.takeWhile (· ≠ c) := by
  intro hmem
  simpa using List.mem_takeWhile_imp hmem

theorem head?_dropWhile_ne {c : Char} {cs : List Char} :
    ∀ d ∈ (cs.dropWhile (· ≠ c)).head?, d = c := by
  intro d hd
  have h := List.head?_dropWhile_not (· ≠ c) cs
  rw [Option.mem_def.mp hd] at h
  simpa using h

/-! ### Keywords and symbols -/

@[simp]
theorem ofSpelling?_keyword (k : Keyword) : Keyword.ofSpelling? k.spelling = some k := by
  cases k <;> rfl

theorem ofSpelling?_keyword_eq_none_iff {cs : List Char} :
    Keyword.ofSpelling? cs = none ↔ ∀ k : Keyword, k.spelling ≠ cs := by
  constructor
  · rintro h k rfl
    rw [ofSpelling?_keyword] at h
    cases h
  · intro h
    rw [Keyword.ofSpelling?, List.find?_eq_none]
    intro k _ hk
    exact h k (of_decide_eq_true hk)

@[simp]
theorem ofSpelling?_symbol (s : Symbol) : Symbol.ofSpelling? s.spelling = some s := by
  cases s <;> rfl

theorem ofSpelling?_symbol_eq_none_iff {cs : List Char} :
    Symbol.ofSpelling? cs = none ↔ ¬Spelling cs := by
  constructor
  · rintro h ⟨s, rfl⟩
    rw [ofSpelling?_symbol] at h
    cases h
  · intro h
    rw [Symbol.ofSpelling?, List.find?_eq_none]
    intro s _ hs
    exact h ⟨s, of_decide_eq_true hs⟩

theorem Spelling.eq_one_or_two {cs : List Char} (h : Spelling cs) :
    (∃ c, cs = [c]) ∨ ∃ c d, cs = [c, d] := by
  obtain ⟨s, rfl⟩ := h
  cases s <;> simp [Symbol.spelling]

/-- The symbol that is read at the front of a text is the longest one there. -/
theorem longest_of_split? {cs rest : List Char} {s : Symbol}
    (h : Symbol.split? cs = some (s, rest)) :
    cs = s.spelling ++ rest ∧ Longest Spelling s.spelling rest := by
  have hone : ∀ {c : Char} {ds : List Char}, Symbol.ofSpelling? [c] = some s →
      (∀ d ∈ ds.head?, Symbol.ofSpelling? [c, d] = none) →
      c :: ds = s.spelling ++ ds ∧ Longest Spelling s.spelling ds := by
    intro c ds hc hds
    have hs := Piece.spelling_of_ofSpelling? hc
    rw [hs]
    refine ⟨rfl, ⟨s, hs⟩, fun t ht hspelling => ?_⟩
    obtain ⟨x, rfl⟩ | ⟨x, y, rfl⟩ := hspelling.eq_one_or_two
    · exact Nat.le_refl 1
    · obtain ⟨more, heq⟩ := ht
      obtain ⟨rfl, rfl⟩ := List.cons.inj heq
      exact absurd hspelling (ofSpelling?_symbol_eq_none_iff.mp (hds y rfl))
  match cs with
  | [] => cases h
  | [c] =>
    obtain ⟨s', hs', heq⟩ := Option.map_eq_some_iff.1 h
    cases heq
    exact hone hs' (by simp)
  | c :: d :: ds =>
    rw [Symbol.split?] at h
    split at h
    · next s' hs' =>
      cases h
      have hs := Piece.spelling_of_ofSpelling? hs'
      rw [hs]
      refine ⟨rfl, ⟨s, hs⟩, fun t _ hspelling => ?_⟩
      obtain ⟨x, rfl⟩ | ⟨x, y, rfl⟩ := hspelling.eq_one_or_two
      · exact Nat.le_succ 1
      · exact Nat.le_refl 2
    · next hnone =>
      obtain ⟨s', hs', heq⟩ := Option.map_eq_some_iff.1 h
      cases heq
      exact hone hs' (by simpa using hnone)

theorem exists_split? {s : Symbol} (rest : List Char) :
    ∃ s' rest', Symbol.split? (s.spelling ++ rest) = some (s', rest') := by
  obtain ⟨c, hc⟩ | ⟨c, d, hcd⟩ := Spelling.eq_one_or_two ⟨s, rfl⟩
  · have hs : Symbol.ofSpelling? [c] = some s := hc ▸ ofSpelling?_symbol s
    rw [hc]
    cases rest with
    | nil => exact ⟨s, [], by rw [List.append_nil, Symbol.split?, hs]; rfl⟩
    | cons d rest =>
      rw [List.cons_append, List.nil_append, Symbol.split?]
      split
      · exact ⟨_, _, rfl⟩
      · exact ⟨s, d :: rest, by rw [hs]; rfl⟩
  · have hs : Symbol.ofSpelling? [c, d] = some s := hcd ▸ ofSpelling?_symbol s
    rw [hcd, List.cons_append, List.cons_append, List.nil_append, Symbol.split?, hs]
    exact ⟨_, _, rfl⟩

/-! ### The first unit of a text -/

/-- What a piece gives. -/
def yields (p : Piece) : Yield :=
  match p.kind?, p.fault? with
  | some kind, _ => .token kind
  | none, some fault => .error fault.message
  | none, none => .nothing

theorem yields_word_of_keyword (k : Keyword) : yields (.word k.spelling) = .token (.keyword k) := by
  rw [yields, Piece.kind?, ofSpelling?_keyword]

theorem yields_word_of_forall_ne {text : List Char} (h : ∀ k : Keyword, k.spelling ≠ text) :
    yields (.word text) = .token (.identifier (String.ofList text)) := by
  rw [yields, Piece.kind?, ofSpelling?_keyword_eq_none_iff.mpr h]

theorem yields_numeral {c : Char} {ds : List Char} (cs : List Char)
    (h : ∀ d ∈ c :: ds, Decimal.isDigit d = true) : yields (Piece.numeral (c :: ds) cs).1 =
      .token (.number (Number.ofChars (Piece.numeral (c :: ds) cs).1.chars)) := by
  obtain ⟨fraction, hnumber⟩ : ∃ fraction,
      (Piece.numeral (c :: ds) cs).1 = .number (c :: ds) fraction := by
    unfold Piece.numeral
    split
    · split
      · exact ⟨_, rfl⟩
      · exact ⟨_, rfl⟩
    · exact ⟨_, rfl⟩
  have hfirst : ∃ es, (Piece.number (c :: ds) fraction).chars = c :: es := by
    cases fraction with
    | nil => exact ⟨_, rfl⟩
    | cons e es => exact ⟨_, rfl⟩
  obtain ⟨es, hes⟩ := hfirst
  have hvalue : Number.ofChars (Piece.number (c :: ds) fraction).chars =
      (Decimal.ofDigits (c :: ds) fraction).toFloat := by
    rw [← ofChars_number fraction h, hes, ofChars_of_isDigit es (h c List.mem_cons_self)]
  rw [hnumber, hvalue]
  rfl

/-- A symbol starts with no character that another unit starts with, comments apart. -/
theorem spelling_start (s : Symbol) : ∀ c ∈ s.spelling.head?, Piece.isBlank c = false ∧ c ≠ '"' ∧
    Decimal.isDigit c = false ∧ Piece.isWordStart c = false := by
  cases s <;> simp only [Symbol.spelling, List.head?_cons, Option.mem_some_iff, forall_eq'] <;>
    decide

theorem next_of_operator {s : Symbol} {c : Char} {cs rest : List Char}
    (heq : c :: cs = s.spelling ++ rest) (h : Longest Spelling s.spelling rest)
    (hline : ¬['/', '/'] <+: s.spelling ++ rest) (hblock : ¬['/', '*'] <+: s.spelling ++ rest) :
    Piece.next c cs = (.symbol s, rest) := by
  have hstart : c ∈ s.spelling.head? := by
    cases hs : s.spelling with
    | nil => cases s <;> cases hs
    | cons d ds =>
      rw [hs, List.cons_append] at heq
      rw [(List.cons.inj heq).1]
      rfl
  obtain ⟨hblank, hquote, hdigit, hword⟩ := spelling_start s c hstart
  have hcomment : ∀ d ∈ cs.head?, ¬(c = '/' ∧ (d = '/' ∨ d = '*')) := by
    rintro d hd ⟨rfl, hd'⟩
    cases cs with
    | nil => cases hd
    | cons e cs =>
      obtain rfl : e = d := Option.some.inj hd
      rw [← heq] at hline hblock
      rcases hd' with rfl | rfl
      · exact hline ⟨cs, rfl⟩
      · exact hblock ⟨cs, rfl⟩
  obtain ⟨s', rest', hsplit⟩ := exists_split? (s := s) rest
  obtain ⟨heq', h'⟩ := longest_of_split? hsplit
  obtain ⟨hs, rfl⟩ := h.unique h' heq'
  obtain rfl : s = s' := by
    have hsome := ofSpelling?_symbol s
    rw [hs, ofSpelling?_symbol] at hsome
    exact (Option.some.inj hsome).symm
  rw [Piece.next_symbol (by simp [hblank]) hquote (by simp [hdigit]) (by simp [hword]) hcomment,
    Piece.symbolOrStray, heq, hsplit]

theorem next_of_numeral {c : Char} {cs text rest : List Char} (heq : c :: cs = text ++ rest)
    (h : Longest Numeral text rest) : ∃ p, Piece.next c cs = (p, rest) ∧ p.chars = text ∧
      yields p = .token (.number (Number.ofChars text)) := by
  have hdigit : Decimal.isDigit c = true := by
    have hhead : ∀ {ds more : List Char}, Digits ds → c :: cs = ds ++ more →
        Decimal.isDigit c = true := by
      intro ds more hds hcons
      obtain ⟨hne, hds⟩ := digits_iff.mp hds
      cases ds with
      | nil => exact absurd rfl hne
      | cons d ds =>
        rw [(List.cons.inj hcons).1]
        exact hds d List.mem_cons_self
    cases h.holds with
    | whole hds => exact hhead hds heq
    | fraction hds hes => exact hhead hds (heq.trans (List.append_assoc _ _ _))
  have htake : (c :: cs).takeWhile Decimal.isDigit = c :: cs.takeWhile Decimal.isDigit :=
    List.takeWhile_cons_of_pos hdigit
  have hdrop : (c :: cs).dropWhile Decimal.isDigit = cs.dropWhile Decimal.isDigit :=
    List.dropWhile_cons_of_pos hdigit
  have hlongest := longest_numeral (c :: cs) (by simp [htake])
  have hdigits : ∀ d ∈ c :: cs.takeWhile Decimal.isDigit, Decimal.isDigit d = true := by
    rw [← htake]
    exact fun _ hd => List.mem_takeWhile_imp hd
  rw [htake, hdrop] at hlongest
  have hcover := Piece.chars_numeral_append (c :: cs.takeWhile Decimal.isDigit)
    (cs.dropWhile Decimal.isDigit)
  rw [List.cons_append, List.takeWhile_append_dropWhile, heq] at hcover
  obtain ⟨hchars, hrest⟩ := hlongest.unique h hcover
  refine ⟨_, ?_, hchars, by rw [yields_numeral _ hdigits, hchars]⟩
  rw [Piece.next_digit hdigit]
  exact Prod.ext rfl hrest

theorem next_of_word {c : Char} {cs text rest : List Char} (heq : c :: cs = text ++ rest)
    (h : Longest Word text rest) : Piece.next c cs = (.word text, rest) := by
  have hstart : Piece.isWordStart c = true := by
    cases h.holds with
    | mk hc hcs =>
      rw [(List.cons.inj heq).1]
      exact isWordStart_iff.mpr hc
  have hcover : c :: cs.takeWhile Piece.isWordChar ++ cs.dropWhile Piece.isWordChar =
      text ++ rest := by
    rw [List.cons_append, List.takeWhile_append_dropWhile, heq]
  obtain ⟨hchars, hrest⟩ := (longest_word cs hstart).unique h hcover
  rw [Piece.next_word hstart, hchars, hrest]

/-- **A unit other than a stray character is read as it is.** -/
theorem next_of_regular {c : Char} {cs text rest : List Char} {y : Yield}
    (heq : c :: cs = text ++ rest) (h : Regular text rest y) :
    ∃ p, Piece.next c cs = (p, rest) ∧ p.chars = text ∧ yields p = y := by
  cases h with
  | blank hc =>
    obtain ⟨rfl, rfl⟩ := List.cons.inj heq
    exact ⟨.blank c, Piece.next_blank (isBlank_iff.mpr hc), rfl, rfl⟩
  | @lineComment text rest htext hrest =>
    rw [List.cons_append] at heq
    obtain ⟨rfl, rfl⟩ := List.cons.inj heq
    have hne : ∀ d ∈ text, decide (d ≠ '\n') = true := by
      intro d hd
      exact decide_eq_true fun hd' => htext (hd' ▸ hd)
    refine ⟨.lineComment text, ?_, rfl, rfl⟩
    rw [List.cons_append, Piece.next_line, List.takeWhile_append_of_pos hne,
      List.dropWhile_append_of_pos hne]
    cases rest with
    | nil => simp
    | cons d rest =>
      obtain rfl := hrest d rfl
      rw [List.takeWhile_cons_of_neg (by decide), List.dropWhile_cons_of_neg (by decide),
        List.append_nil]
  | @blockComment text rest hfirst =>
    rw [List.cons_append] at heq
    obtain ⟨rfl, rfl⟩ := List.cons.inj heq
    refine ⟨.blockComment text, ?_, rfl, rfl⟩
    rw [List.cons_append, Piece.next_comment, List.append_assoc, Piece.comment]
    simp only [List.cons_append, List.nil_append, closeComment?_of_first _ hfirst]
  | @openComment text hopen =>
    rw [List.cons_append] at heq
    obtain ⟨rfl, rfl⟩ := List.cons.inj heq
    refine ⟨.openComment text, ?_, rfl, rfl⟩
    rw [List.append_nil, Piece.next_comment, Piece.comment, closeComment?_eq_none_iff.mpr hopen]
  | @string text rest htext =>
    rw [List.cons_append] at heq
    obtain ⟨rfl, rfl⟩ := List.cons.inj heq
    refine ⟨.string text, ?_, rfl, rfl⟩
    rw [Piece.next_quote, List.append_assoc]
    exact quoted_of_closed rest htext
  | @openString text htext =>
    rw [List.cons_append] at heq
    obtain ⟨rfl, rfl⟩ := List.cons.inj heq
    refine ⟨.openString text, ?_, rfl, rfl⟩
    rw [List.append_nil, Piece.next_quote, quoted_of_open htext]
  | number hlongest => exact next_of_numeral heq hlongest
  | @keyword k rest hlongest =>
    exact ⟨_, next_of_word heq hlongest, rfl, yields_word_of_keyword k⟩
  | identifier hlongest hk =>
    exact ⟨_, next_of_word heq hlongest, rfl, yields_word_of_forall_ne hk⟩
  | operator hlongest hline hblock =>
    exact ⟨_, next_of_operator heq hlongest hline hblock, rfl, rfl⟩

/-! ### The first piece of a text -/

theorem regular_comment (cs : List Char) : Regular (Piece.comment cs).1.chars (Piece.comment cs).2
    (yields (Piece.comment cs).1) := by
  unfold Piece.comment
  split
  · next text rest hclose => exact .blockComment (first_of_closeComment? hclose)
  · next hclose => exact .openComment (closeComment?_eq_none_iff.mp hclose)

theorem regular_quoted (cs : List Char) : Regular (Piece.quoted cs).1.chars (Piece.quoted cs).2
    (yields (Piece.quoted cs).1) := by
  unfold Piece.quoted
  split
  · exact .string (not_mem_takeWhile_ne '"' cs)
  · next hdrop =>
    refine .openString fun hmem => ?_
    have hne := List.dropWhile_eq_nil_iff.mp hdrop '"' hmem
    cases hne

theorem regular_word {c : Char} (cs : List Char) (hc : Piece.isWordStart c = true) :
    Regular (c :: cs.takeWhile Piece.isWordChar) (cs.dropWhile Piece.isWordChar)
      (yields (.word (c :: cs.takeWhile Piece.isWordChar))) := by
  have hlongest := longest_word cs hc
  generalize c :: cs.takeWhile Piece.isWordChar = text at hlongest
  by_cases hk : ∃ k : Keyword, k.spelling = text
  · obtain ⟨k, rfl⟩ := hk
    rw [yields_word_of_keyword]
    exact .keyword hlongest
  · have hk : ∀ k : Keyword, k.spelling ≠ text := fun k h => hk ⟨k, h⟩
    rw [yields_word_of_forall_ne hk]
    exact .identifier hlongest hk

theorem regular_numeral {c : Char} (cs : List Char) (hc : Decimal.isDigit c = true) :
    Regular (Piece.next c cs).1.chars (Piece.next c cs).2 (yields (Piece.next c cs).1) := by
  have htake : (c :: cs).takeWhile Decimal.isDigit = c :: cs.takeWhile Decimal.isDigit :=
    List.takeWhile_cons_of_pos hc
  have hlongest := longest_numeral (c :: cs) (by simp [htake])
  rw [htake, List.dropWhile_cons_of_pos hc] at hlongest
  rw [Piece.next_digit hc, yields_numeral]
  · exact .number hlongest
  · rw [← htake]
    exact fun _ hd => List.mem_takeWhile_imp hd

/-- The first piece of a text is a unit other than a stray character, or a stray character. -/
theorem regular_next_or_stray (c : Char) (cs : List Char) :
    Regular (Piece.next c cs).1.chars (Piece.next c cs).2 (yields (Piece.next c cs).1) ∨
      Piece.next c cs = (.stray c, cs) := by
  by_cases hblank : Piece.isBlank c = true
  · rw [Piece.next_blank hblank]
    exact .inl (.blank (isBlank_iff.mp hblank))
  by_cases hquote : c = '"'
  · subst hquote
    exact .inl (regular_quoted cs)
  by_cases hdigit : Decimal.isDigit c = true
  · exact .inl (regular_numeral cs hdigit)
  by_cases hword : Piece.isWordStart c = true
  · rw [Piece.next_word hword]
    exact .inl (regular_word cs hword)
  by_cases hline : ['/', '/'] <+: c :: cs
  · obtain ⟨rest, heq⟩ := hline
    obtain ⟨rfl, rfl⟩ := List.cons.inj heq
    exact .inl (.lineComment (not_mem_takeWhile_ne '\n' rest) head?_dropWhile_ne)
  by_cases hblock : ['/', '*'] <+: c :: cs
  · obtain ⟨rest, heq⟩ := hblock
    obtain ⟨rfl, rfl⟩ := List.cons.inj heq
    exact .inl (regular_comment rest)
  have hcomment : ∀ d ∈ cs.head?, ¬(c = '/' ∧ (d = '/' ∨ d = '*')) := by
    rintro d hd ⟨rfl, hd'⟩
    cases cs with
    | nil => cases hd
    | cons e cs =>
      obtain rfl : e = d := Option.some.inj hd
      rcases hd' with rfl | rfl
      · exact hline ⟨cs, rfl⟩
      · exact hblock ⟨cs, rfl⟩
  rw [Piece.next_symbol hblank hquote hdigit hword hcomment, Piece.symbolOrStray]
  split
  · next s rest hsplit =>
    obtain ⟨heq, hlongest⟩ := longest_of_split? hsplit
    rw [heq] at hline hblock
    exact .inl (.operator hlongest hline hblock)
  · exact .inr rfl

theorem Regular.ne_unexpected {text rest : List Char} {y : Yield} (h : Regular text rest y) :
    y ≠ .error "Unexpected character." := by
  cases h with
  | openString htext =>
    intro heq
    exact absurd (Yield.error.inj heq) (by decide)
  | _ => nofun

/-- **The first piece of a text is the only unit that the text starts with.** -/
theorem isUnit_iff {c : Char} {cs text rest : List Char} {y : Yield}
    (heq : c :: cs = text ++ rest) :
    IsUnit text rest y ↔ ∃ p, Piece.next c cs = (p, rest) ∧ p.chars = text ∧ yields p = y := by
  constructor
  · intro h
    cases h with
    | regular h => exact next_of_regular heq h
    | stray h =>
      obtain ⟨rfl, rfl⟩ := List.cons.inj heq
      obtain hregular | hstray := regular_next_or_stray c cs
      · exact absurd hregular (h _ _ _ (Piece.chars_next_append c cs))
      · exact ⟨_, hstray, rfl, rfl⟩
  · rintro ⟨p, hp, rfl, rfl⟩
    obtain hregular | hstray := regular_next_or_stray c cs
    · rw [hp] at hregular
      exact .regular hregular
    · rw [hp] at hstray
      obtain ⟨rfl, rfl⟩ := Prod.mk.inj hstray
      refine .stray fun t r y htr hregular => ?_
      obtain ⟨q, hq, -, rfl⟩ := next_of_regular htr.symm hregular
      rw [hp] at hq
      obtain ⟨rfl, -⟩ := Prod.mk.inj hq
      exact hregular.ne_unexpected rfl

end Lexicon

end Lox
