import Lox.Proofs.Lexicon.Scan

/-!
# Scanning undoes rendering

A token is *well formed* when its lexeme spells its kind.  Tokens are rendered by writing their
lexemes one after the other with a *separator* between each two, which is a blank and after it any
blanks and closed comments; a separator may also stand before the first lexeme and after the last.

Scanning a rendering gives the tokens back (`scan_undoes_rendering`).  The proof goes piece by
piece: `Gives ps ts` says that the pieces `ps` are the tokens `ts` and nothing else but blanks and
comments, and each part of a rendering adds to it.

* `Gives.filler`: blanks and comments add nothing, whatever follows them.
* `Gives.token`: a lexeme and a separator add their token, since a blank ends every token.

The tokens of a source text are well formed themselves (`wellFormed_of_mem_words`), so any source
text can be written again from its lexemes.
-/

namespace Lox

namespace Token

/-- The kind and the lexeme of a token, without its line. -/
def content (t : Token) : Kind × String := (t.kind, t.lexeme)

end Token

namespace Lexicon

/-! ### Renderings -/

/-- The lexeme of the token spells its kind. -/
inductive WellFormed : Token → Prop
  | symbol (s : Symbol) (line : Int32) : WellFormed ⟨.symbol s, String.ofList s.spelling, line⟩
  | keyword (k : Keyword) (line : Int32) : WellFormed ⟨.keyword k, String.ofList k.spelling, line⟩
  | identifier {text : List Char} (h : Word text) (hk : ∀ k : Keyword, k.spelling ≠ text)
      (line : Int32) : WellFormed ⟨.identifier (String.ofList text), String.ofList text, line⟩
  | number {text : List Char} (h : Numeral text) (line : Int32) :
      WellFormed ⟨.number (Number.ofChars text), String.ofList text, line⟩
  | string {text : List Char} (h : '"' ∉ text) (line : Int32) :
      WellFormed ⟨.string (String.ofList text), String.ofList ('"' :: (text ++ ['"'])), line⟩

/-- Blanks, line comments with the line feed that ends them, and closed block comments, in any
order. -/
inductive Filler : List Char → Prop
  | nil : Filler []
  | blank {c : Char} {cs : List Char} (hc : c ∈ [' ', '\r', '\t', '\n']) (h : Filler cs) :
      Filler (c :: cs)
  | lineComment {text cs : List Char} (htext : '\n' ∉ text) (h : Filler cs) :
      Filler ('/' :: '/' :: (text ++ '\n' :: cs))
  | blockComment {text cs : List Char} (htext : ¬['*', '/'] <:+: text) (h : Filler cs) :
      Filler ('/' :: '*' :: (text ++ '*' :: '/' :: cs))

/-- Filler that begins with a blank. -/
inductive Separator : List Char → Prop
  | mk {c : Char} {cs : List Char} (hc : c ∈ [' ', '\r', '\t', '\n']) (h : Filler cs) :
      Separator (c :: cs)

/-- The lexemes of the tokens, with a separator between each two. -/
inductive Joined : List Token → List Char → Prop
  | nil : Joined [] []
  | one (t : Token) : Joined [t] t.lexeme.toList
  | cons (t : Token) {u : Token} {ts : List Token} {sep cs : List Char} (hsep : Separator sep)
      (h : Joined (u :: ts) cs) : Joined (t :: u :: ts) (t.lexeme.toList ++ (sep ++ cs))

/-- The joined lexemes of the tokens, perhaps with separators before and after them. -/
def Rendering (ts : List Token) (source : String) : Prop :=
  ∃ before middle after, source.toList = before ++ (middle ++ after) ∧
    (before = [] ∨ Separator before) ∧ Joined ts middle ∧ (after = [] ∨ Separator after)

/-! ### What pieces give -/

/-- The pieces are the tokens, up to their lines, with only blanks and comments between them. -/
structure Gives (ps : List Piece) (ts : List Token) : Prop where
  contents : ps.filterMap (fun p => p.kind?.map fun k => (k, String.ofList p.chars)) =
    ts.map Token.content
  faultless : ∀ p ∈ ps, p.fault? = none

theorem map_content_words : ∀ (ps : List Piece) (line : Int32),
    (Scan.words line ps).map Token.content =
      ps.filterMap fun p => p.kind?.map fun k => (k, String.ofList p.chars) := by
  intro ps
  induction ps with
  | nil => exact fun _ => rfl
  | cons p ps ih =>
    intro line
    rw [Scan.words, List.map_append, ih, List.filterMap_cons, Piece.token?]
    cases p.kind? <;> rfl

theorem Gives.scan {source : String} {ts : List Token} (h : Gives (Piece.split source.toList) ts) :
    (scan source).errors = [] ∧
      (scan source).tokens.map Token.content = ts.map Token.content ++ [(.eof, "")] := by
  refine ⟨(Scan.errors_ofPieces_eq_nil _ 1).mpr h.faultless, ?_⟩
  rw [Lox.scan, Scan.tokens_ofPieces, List.map_append, map_content_words, h.contents]
  rfl

theorem gives_nil : Gives [] [] := ⟨rfl, fun _ h => (List.not_mem_nil h).elim⟩

theorem Gives.skip {p : Piece} {ps : List Piece} {ts : List Token} (hkind : p.kind? = none)
    (hfault : p.fault? = none) (h : Gives ps ts) : Gives (p :: ps) ts where
  contents := by rw [List.filterMap_cons, hkind, Option.map_none, h.contents]
  faultless := List.forall_mem_cons.mpr ⟨hfault, h.faultless⟩

theorem fault?_of_kind? {p : Piece} {k : Kind} (h : p.kind? = some k) :
    p.fault? = none ∧ ∀ b, p.EndsBefore b := by
  cases p with
  | string text => exact ⟨rfl, fun _ => trivial⟩
  | number whole fraction => exact ⟨rfl, fun _ => trivial⟩
  | word text => exact ⟨rfl, fun _ => trivial⟩
  | symbol s => exact ⟨rfl, fun _ => trivial⟩
  | _ => cases h

theorem Gives.add {p : Piece} {t : Token} {ps : List Piece} {ts : List Token}
    (hkind : p.kind? = some t.kind) (hchars : p.chars = t.lexeme.toList) (h : Gives ps ts) :
    Gives (p :: ps) (t :: ts) where
  contents := by
    rw [List.filterMap_cons, hkind, Option.map_some, h.contents, hchars, String.ofList_toList]
    rfl
  faultless := List.forall_mem_cons.mpr ⟨(fault?_of_kind? hkind).1, h.faultless⟩

/-! ### Blanks and comments -/

theorem exists_split_of_regular {text rest : List Char} {y : Yield} (h : Regular text rest y) :
    ∃ p, Piece.split (text ++ rest) = p :: Piece.split rest ∧ p.chars = text ∧ yields p = y := by
  obtain ⟨c, cs, rfl⟩ := List.exists_cons_of_ne_nil h.ne_nil
  obtain ⟨p, hnext, hchars, hyields⟩ := next_of_regular List.cons_append.symm h
  refine ⟨p, ?_, hchars, hyields⟩
  rw [List.cons_append, Piece.split, hnext]

theorem kind?_of_yields_nothing {p : Piece} (h : yields p = .nothing) :
    p.kind? = none ∧ p.fault? = none := by
  unfold yields at h
  split at h
  · cases h
  · cases h
  · exact ⟨‹_›, ‹_›⟩

theorem Gives.nothing {text rest : List Char} {ts : List Token} (hunit : Regular text rest .nothing)
    (h : Gives (Piece.split rest) ts) : Gives (Piece.split (text ++ rest)) ts := by
  obtain ⟨p, hsplit, -, hyields⟩ := exists_split_of_regular hunit
  obtain ⟨hkind, hfault⟩ := kind?_of_yields_nothing hyields
  rw [hsplit]
  exact h.skip hkind hfault

/-- The star of the closing `*/` closes nothing earlier. -/
theorem not_infix_append_star {text : List Char} (h : ¬['*', '/'] <:+: text) :
    ¬['*', '/'] <:+: text ++ ['*'] := by
  rw [List.infix_concat_iff, not_or]
  refine ⟨?_, h⟩
  rintro ⟨front, heq⟩
  have hlast := congrArg List.getLast? heq
  simp at hlast

/-- **Blanks and comments add nothing,** whatever follows them. -/
theorem Gives.filler {cs rest : List Char} {ts : List Token} (hcs : Filler cs)
    (h : Gives (Piece.split rest) ts) : Gives (Piece.split (cs ++ rest)) ts := by
  induction hcs with
  | nil => exact h
  | @blank c cs hc hcs ih =>
    have hblank : Gives (Piece.split ([c] ++ (cs ++ rest))) ts := ih.nothing (.blank hc)
    exact hblank
  | @lineComment text cs htext hcs ih =>
    have hblank : Gives (Piece.split (['\n'] ++ (cs ++ rest))) ts := ih.nothing (.blank (by simp))
    have hline : Gives (Piece.split ('/' :: '/' :: text ++ '\n' :: (cs ++ rest))) ts :=
      hblank.nothing (.lineComment htext (by simp))
    simpa using hline
  | @blockComment text cs htext hcs ih =>
    have hblock : Gives (Piece.split ('/' :: '*' :: (text ++ ['*', '/']) ++ (cs ++ rest))) ts :=
      ih.nothing (.blockComment (not_infix_append_star htext))
    simpa using hblock

theorem Separator.filler {sep : List Char} (h : Separator sep) : Filler sep := by
  cases h with
  | mk hc hcs => exact .blank hc hcs

theorem gives_after {after : List Char} (h : after = [] ∨ Separator after) :
    Gives (Piece.split after) [] := by
  have hnil : Gives (Piece.split []) [] := by
    rw [Piece.split]
    exact gives_nil
  obtain rfl | hsep := h
  · exact hnil
  · have hafter := hnil.filler hsep.filler
    rwa [List.append_nil] at hafter

/-! ### Tokens -/

theorem word_spelling (k : Keyword) : Word k.spelling := by
  have hletters : ∀ c ∈ k.spelling, Piece.isWordStart c = true :=
    List.all_eq_true.mp (by cases k <;> decide)
  cases hk : k.spelling with
  | nil => cases k <;> cases hk
  | cons c cs =>
    rw [hk, List.forall_mem_cons] at hletters
    exact .mk (isWordStart_iff.mp hletters.1)
      fun d hd => .inl (isWordStart_iff.mp (hletters.2 d hd))

theorem longest_nil {P : List Char → Prop} {text : List Char} (h : P text) : Longest P text [] where
  holds := h
  length_le t ht _ := by
    rw [List.append_nil] at ht
    exact ht.length_le

theorem WellFormed.regular {t : Token} (h : WellFormed t) :
    Regular t.lexeme.toList [] (.token t.kind) := by
  cases h with
  | symbol s line =>
    rw [String.toList_ofList]
    exact .operator (longest_nil ⟨s, rfl⟩) (by cases s <;> decide) (by cases s <;> decide)
  | keyword k line =>
    rw [String.toList_ofList]
    exact .keyword (longest_nil (word_spelling k))
  | identifier hword hk line =>
    rw [String.toList_ofList]
    exact .identifier (longest_nil hword) hk
  | number hnumeral line =>
    rw [String.toList_ofList]
    exact .number (longest_nil hnumeral)
  | string htext line =>
    rw [String.toList_ofList]
    exact .string htext

theorem kind?_of_yields_token {p : Piece} {k : Kind} (h : yields p = .token k) :
    p.kind? = some k := by
  unfold yields at h
  split at h
  · cases h
    assumption
  · cases h
  · cases h

theorem Gives.unit {text rest : List Char} {k : Kind} {ts : List Token} (line : Int32)
    (hunit : Regular text rest (.token k)) (h : Gives (Piece.split rest) ts) :
    Gives (Piece.split (text ++ rest)) (⟨k, String.ofList text, line⟩ :: ts) := by
  obtain ⟨p, hsplit, hchars, hyields⟩ := exists_split_of_regular hunit
  rw [hsplit]
  exact h.add (kind?_of_yields_token hyields) (by rw [hchars, String.toList_ofList])

theorem gives_semicolon : Gives (Piece.split [';']) [⟨.symbol .semicolon, ";", 1⟩] := by
  have hnil : Gives (Piece.split []) [] := gives_after (.inl rfl)
  exact hnil.unit 1 (WellFormed.symbol .semicolon 1).regular

/-- A symbol other than the slash that no other symbol begins like is an operator, whatever follows
it. -/
theorem regular_symbol (s : Symbol)
    (halone : ∀ t : Symbol, t.spelling.head? = s.spelling.head? → t = s) (hslash : s ≠ .slash)
    (rest : List Char) : Regular s.spelling rest (.token (.symbol s)) := by
  obtain ⟨c, cs, hs⟩ := List.exists_cons_of_ne_nil (l := s.spelling) (by cases s <;> decide)
  have hhead : ∀ {b : Char} {bs : List Char}, b :: bs <+: s.spelling ++ rest →
      some b = s.spelling.head? := by
    intro b bs hbegins
    rw [hs, List.cons_append, List.cons_prefix_cons] at hbegins
    rw [hs, hbegins.1, List.head?_cons]
  have hcomment : ∀ bs : List Char, ¬ '/' :: bs <+: s.spelling ++ rest := fun bs hbegins =>
    hslash (halone .slash (hhead hbegins)).symm
  refine .operator ⟨⟨s, rfl⟩, ?_⟩ (hcomment _) (hcomment _)
  rintro _ hbegins ⟨t, rfl⟩
  obtain ⟨b, bs, ht⟩ := List.exists_cons_of_ne_nil (l := t.spelling) (by cases t <;> decide)
  rw [ht] at hbegins
  have hts : t = s := halone t (by rw [ht, List.head?_cons, hhead hbegins])
  rw [hts]

theorem WellFormed.exists_piece {t : Token} (h : WellFormed t) :
    ∃ p, Piece.split t.lexeme.toList = [p] ∧ p.chars = t.lexeme.toList ∧ p.kind? = some t.kind := by
  obtain ⟨p, hsplit, hchars, hyields⟩ := exists_split_of_regular h.regular
  rw [List.append_nil, Piece.split] at hsplit
  exact ⟨p, hsplit, hchars, kind?_of_yields_token hyields⟩

/-- **A lexeme and a separator add their token.** -/
theorem Gives.token {t : Token} {sep rest : List Char} {ts : List Token} (ht : WellFormed t)
    (hsep : Separator sep) (h : Gives (Piece.split rest) ts) :
    Gives (Piece.split (t.lexeme.toList ++ (sep ++ rest))) (t :: ts) := by
  -- Alone, the lexeme is one piece; a blank ends that piece, so nothing changes before a blank.
  obtain ⟨p, hsplit, hchars, hkind⟩ := ht.exists_piece
  cases hsep with
  | @mk b cs hb hcs =>
    have hends : ∀ q ∈ Piece.split t.lexeme.toList, q.EndsBefore b := by
      rw [hsplit]
      exact List.forall_mem_singleton.mpr ((fault?_of_kind? hkind).2 b)
    rw [List.cons_append, Piece.split_append (isBlank_iff.mpr hb) _ _ hends, hsplit]
    exact ((h.filler hcs).skip rfl rfl).add hkind hchars

theorem Joined.gives {ts : List Token} {cs after : List Char} (h : Joined ts cs)
    (hts : ∀ t ∈ ts, WellFormed t) (hafter : after = [] ∨ Separator after) :
    Gives (Piece.split (cs ++ after)) ts := by
  induction h with
  | nil => exact gives_after hafter
  | one t =>
    have ht := hts t List.mem_cons_self
    obtain rfl | hsep := hafter
    · obtain ⟨p, hsplit, hchars, hkind⟩ := ht.exists_piece
      rw [List.append_nil, hsplit]
      exact gives_nil.add hkind hchars
    · have hnil : Gives (Piece.split []) [] := gives_after (.inl rfl)
      have htoken := hnil.token ht hsep
      rwa [List.append_nil] at htoken
  | cons t hsep hjoined ih =>
    rw [List.forall_mem_cons] at hts
    rw [List.append_assoc, List.append_assoc]
    exact (ih hts.2).token hts.1 hsep

theorem Rendering.gives {ts : List Token} {source : String} (h : Rendering ts source)
    (hts : ∀ t ∈ ts, WellFormed t) : Gives (Piece.split source.toList) ts := by
  obtain ⟨before, middle, after, heq, hbefore, hmiddle, hafter⟩ := h
  have hrest := hmiddle.gives hts hafter
  rw [heq]
  obtain rfl | hsep := hbefore
  · exact hrest
  · exact hrest.filler hsep.filler

/-! ### The tokens of a source text -/

theorem IsUnit.wellFormed {text rest : List Char} {k : Kind} (h : IsUnit text rest (.token k))
    (line : Int32) : WellFormed ⟨k, String.ofList text, line⟩ := by
  cases h with
  | regular h =>
    cases h with
    | string htext => exact .string htext line
    | number hlongest => exact .number hlongest.holds line
    | keyword hlongest => exact .keyword _ line
    | identifier hlongest hk => exact .identifier hlongest.holds hk line
    | operator hlongest hline hblock => exact .symbol _ line

/-- **The tokens of a source text are well formed.** -/
theorem wellFormed_of_mem_words {cs : List Char} {t : Token}
    (ht : t ∈ Scan.words 1 (Piece.split cs)) : WellFormed t := by
  have hwords : Scan.words 1 (Piece.split cs) =
      (place [] (Piece.split cs)).filterMap Placed.token? := words_eq_place _ []
  rw [hwords] at ht
  obtain ⟨u, hu, htoken⟩ := List.mem_filterMap.mp ht
  obtain ⟨rest, hunit⟩ := ((segmentation_iff cs [] _).mpr rfl).exists_isUnit u hu
  obtain ⟨hgives, hlexeme, -⟩ := eq_of_token? htoken
  rw [hgives] at hunit
  have hformed := hunit.wellFormed t.line
  rwa [← hlexeme] at hformed

theorem separator_space : Separator [' '] := .mk (by simp) .nil

theorem joined_spaces : ∀ ts : List Token,
    Joined ts (" ".intercalate (ts.map Token.lexeme)).toList := by
  intro ts
  induction ts with
  | nil => exact .nil
  | cons t ts ih =>
    cases ts with
    | nil =>
      rw [List.map_singleton, String.intercalate_singleton]
      exact .one t
    | cons u ts =>
      rw [List.map_cons, List.map_cons, String.intercalate_cons_cons, ← List.map_cons,
        String.toList_append, String.toList_append, List.append_assoc]
      exact .cons t separator_space ih

theorem rendering_spaces (ts : List Token) :
    Rendering ts (" ".intercalate (ts.map Token.lexeme ++ [""])) := by
  by_cases hts : ts = []
  · subst hts
    exact ⟨[], [], [], by simp, .inl rfl, .nil, .inl rfl⟩
  · refine ⟨[], _, [' '], ?_, .inl rfl, joined_spaces ts, .inr separator_space⟩
    rw [String.intercalate_append_of_ne_nil (by simpa using hts) (by simp)]
    simp

/-- **Scanning undoes rendering.**  However well-formed tokens are laid out, with a blank and any
blanks and closed comments between each two, scanning gives no errors and exactly these tokens, and
then the end of the input.  So any source text can be written again as its lexemes with single
spaces between them, the empty lexeme of the end of the input included or not: scanning that gives
no errors and the same tokens up to their lines. -/
theorem scan_undoes_rendering :
    (∀ (ts : List Token) (source : String), (∀ t ∈ ts, WellFormed t) → Rendering ts source →
      (scan source).errors = [] ∧
        (scan source).tokens.map Token.content = ts.map Token.content ++ [(.eof, "")]) ∧
    ∀ source : String, ∀ ts ∈ [(scan source).tokens, (scan source).tokens.dropLast],
      (scan (" ".intercalate (ts.map Token.lexeme))).errors = [] ∧
        (scan (" ".intercalate (ts.map Token.lexeme))).tokens.map Token.content =
          (scan source).tokens.map Token.content := by
  refine ⟨fun ts source hts h => (h.gives hts).scan, fun source => ?_⟩
  have htokens : (scan source).tokens = Scan.words 1 (Piece.split source.toList) ++
      [⟨.eof, "", Piece.lineAfterEach 1 (Piece.split source.toList)⟩] := Scan.tokens_ofPieces _ _
  have hwords : ∀ t ∈ Scan.words 1 (Piece.split source.toList), WellFormed t :=
    fun t ht => wellFormed_of_mem_words ht
  rw [htokens, List.dropLast_concat, List.map_append, List.forall_mem_cons,
    List.forall_mem_singleton]
  refine ⟨?_, ?_⟩
  · rw [List.map_append]
    exact ((rendering_spaces _).gives hwords).scan
  · have hjoined := (joined_spaces _).gives hwords (.inl rfl)
    rw [List.append_nil] at hjoined
    exact hjoined.scan

/-- The name begins with a keyword, the string holds what would start a comment outside of it, and
one comment holds stars and a quote. -/
theorem scan_undoes_rendering_commented :
    let source := "\t//\"\norchid\n/***\"**/ != 1.5 \"/*\n\""
    let ts : List Token := [⟨.identifier "orchid", "orchid", 7⟩, ⟨.symbol .bangEqual, "!=", 7⟩,
      ⟨.number (Number.ofChars ['1', '.', '5']), "1.5", 7⟩, ⟨.string "/*\n", "\"/*\n\"", 7⟩]
    (∀ t ∈ ts, WellFormed t) ∧ Rendering ts source ∧ (scan source).errors = [] ∧
      (scan source).tokens.map Token.content = ts.map Token.content ++ [(.eof, "")] := by
  intro source ts
  have hchars : ∀ d ∈ ['r', 'c', 'h', 'i', 'd'], Piece.isWordChar d = true :=
    List.all_eq_true.mp (by decide)
  have hname : Word ['o', 'r', 'c', 'h', 'i', 'd'] :=
    .mk (isWordStart_iff.mp rfl) fun d hd => isWordChar_iff.mp (hchars d hd)
  have hnumber : Numeral (['1'] ++ '.' :: ['5']) :=
    .fraction (digits_iff.mpr ⟨nofun, List.all_eq_true.mp (by decide)⟩)
      (digits_iff.mpr ⟨nofun, List.all_eq_true.mp (by decide)⟩)
  have hstring : '"' ∉ ['/', '*', '\n'] := by decide
  have hts : ∀ t ∈ ts, WellFormed t := by
    rw [List.forall_mem_cons, List.forall_mem_cons, List.forall_mem_cons, List.forall_mem_singleton]
    exact ⟨.identifier hname (by intro k; cases k <;> decide) 7, .symbol .bangEqual 7,
      .number hnumber 7, .string hstring 7⟩
  have hline : Filler ('/' :: '/' :: (['"'] ++ '\n' :: [])) := .lineComment (by decide) .nil
  have hblock : Filler ('/' :: '*' :: (['*', '*', '"', '*'] ++ '*' :: '/' :: [' '])) :=
    .blockComment (by decide) (.blank (by decide) .nil)
  have hsource : Rendering ts source :=
    ⟨'\t' :: _, _, [], by decide, .inr (.mk (by decide) hline),
      .cons _ (.mk (List.mem_of_getElem? (i := 3) rfl) hblock)
        (.cons _ separator_space (.cons _ separator_space (.one _))), .inl rfl⟩
  exact ⟨hts, hsource, scan_undoes_rendering.1 ts source hts hsource⟩

end Lexicon

end Lox
