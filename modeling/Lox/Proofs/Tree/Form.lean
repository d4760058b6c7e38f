import Lox.Tree.Dump

/-!
# Bracketed forms

What dumps are written in, whatever they are dumps of.  A *form* is a word, or a head and further
forms in brackets; a word, and so a head, is not empty and has no blank and no bracket in it.

A form is read off its text in one way only (`Form.eq_of_text_eq`).  The parts of a form stand one
after the other, so the induction has to say where each of them ends: if what follows two forms
would end a word, then the texts with what follows them are the same only if the forms are and what
follows them is (`Form.append_inj`).  The parts of a node end with its closing bracket, and for them
nothing need be known of what follows (`Form.parts_inj`).
-/

namespace Lox

/-- A word, or a head and parts in brackets. -/
inductive Form where
  | word (text : String)
  | node (head : String) (parts : List Form)

namespace Form

/-! ### Texts -/

mutual

/-- The text of a form. -/
def text : Form → String
  | word text => text
  | node head parts => Tree.bracketed head (textEach parts)

/-- The texts of forms. -/
def textEach : List Form → List String
  | [] => []
  | f :: fs => f.text :: textEach fs

end

/-- The characters after the head of a node: a blank before each part, and the closing bracket. -/
def partsChars : List Form → List Char
  | [] => [')']
  | f :: fs => ' ' :: (f.text.toList ++ partsChars fs)

theorem toList_foldr_textEach : ∀ fs : List Form,
    ((textEach fs).foldr (fun part text => " " ++ part ++ text) ")").toList = partsChars fs := by
  intro fs
  induction fs with
  | nil => rfl
  | cons f fs ih =>
    rw [textEach, List.foldr_cons, String.toList_append, String.toList_append, ih]
    rfl

theorem toList_text_node (head : String) (fs : List Form) :
    (node head fs).text.toList = '(' :: (head.toList ++ partsChars fs) := by
  rw [text, Tree.bracketed, String.toList_append, String.toList_append, toList_foldr_textEach]
  rfl

/-! ### Words -/

/-- The text is not empty and has no blank and no bracket in it. -/
structure IsWord (text : String) : Prop where
  ne_nil : text.toList ≠ []
  unmarked : ∀ c ∈ text.toList, c ∉ [' ', '(', ')']

theorem isWord_iff (text : String) : IsWord text ↔
    text.toList ≠ [] ∧ text.toList.all (fun c => c ∉ [' ', '(', ')']) = true := by
  rw [List.all_eq_true]
  constructor
  · rintro ⟨hne, hunmarked⟩
    exact ⟨hne, fun c hc => decide_eq_true (hunmarked c hc)⟩
  · rintro ⟨hne, hunmarked⟩
    exact ⟨hne, fun c hc => of_decide_eq_true (hunmarked c hc)⟩

instance (text : String) : Decidable (IsWord text) := decidable_of_iff' _ (isWord_iff text)

mutual

/-- All words and heads of the form are words. -/
def Legible : Form → Prop
  | word text => IsWord text
  | node head parts => IsWord head ∧ LegibleEach parts

/-- All of the forms are legible. -/
def LegibleEach : List Form → Prop
  | [] => True
  | f :: fs => f.Legible ∧ LegibleEach fs

end

/-- A word that stands before `rest` ends there. -/
def EndsWord (rest : List Char) : Prop := ∀ c ∈ rest.head?, c = ' ' ∨ c = ')'

theorem endsWord_partsChars (fs : List Form) (rest : List Char) :
    EndsWord (partsChars fs ++ rest) := by
  cases fs with
  | nil => simp [partsChars, EndsWord]
  | cons f fs => simp [partsChars, EndsWord]

/-- What ends a word begins with no character of a word. -/
theorem EndsWord.ne_append {c : Char} {cs rest rest' : List Char} (h : EndsWord rest)
    (hc : c ∉ [' ', '(', ')']) : rest ≠ c :: cs ++ rest' := by
  rintro rfl
  rcases h c rfl with rfl | rfl
  · exact hc (by simp)
  · exact hc (by simp)

theorem unmarked_append_inj : ∀ {cs ds rest rest' : List Char}, (∀ c ∈ cs, c ∉ [' ', '(', ')']) →
    (∀ d ∈ ds, d ∉ [' ', '(', ')']) → EndsWord rest → EndsWord rest' →
    cs ++ rest = ds ++ rest' → cs = ds ∧ rest = rest' := by
  intro cs
  induction cs with
  | nil =>
    intro ds rest rest' _ hds hrest _ h
    cases ds with
    | nil => exact ⟨rfl, h⟩
    | cons d ds => exact absurd h (hrest.ne_append (hds d (by simp)))
  | cons c cs ih =>
    intro ds rest rest' hcs hds hrest hrest' h
    cases ds with
    | nil => exact absurd h.symm (hrest'.ne_append (hcs c (by simp)))
    | cons d ds =>
      rw [List.forall_mem_cons] at hcs hds
      rw [List.cons_append, List.cons_append] at h
      rcases List.cons.inj h with ⟨rfl, htails⟩
      rcases ih hcs.2 hds.2 hrest hrest' htails with ⟨rfl, hrests⟩
      exact ⟨rfl, hrests⟩

theorem IsWord.append_inj {v w : String} {rest rest' : List Char} (hv : IsWord v) (hw : IsWord w)
    (hrest : EndsWord rest) (hrest' : EndsWord rest') (h : v.toList ++ rest = w.toList ++ rest') :
    v = w ∧ rest = rest' := by
  rcases unmarked_append_inj hv.unmarked hw.unmarked hrest hrest' h with ⟨hchars, hrests⟩
  exact ⟨String.toList_inj.mp hchars, hrests⟩

/-- A word does not begin with a bracket. -/
theorem IsWord.append_ne {w : String} (hw : IsWord w) (rest cs : List Char) :
    w.toList ++ rest ≠ '(' :: cs := by
  intro h
  rcases List.exists_cons_of_ne_nil hw.ne_nil with ⟨c, ds, hchars⟩
  have hc := hw.unmarked c (by simp [hchars])
  rw [hchars, List.cons_append] at h
  rcases List.cons.inj h with ⟨rfl, -⟩
  exact hc (by simp)

/-! ### Reading a text in one way only -/

mutual

/-- **A form and what follows it are determined by their text,** as long as what follows would end a
word. -/
theorem append_inj (f g : Form) (hf : f.Legible) (hg : g.Legible) {rest rest' : List Char}
    (hrest : EndsWord rest) (hrest' : EndsWord rest')
    (h : f.text.toList ++ rest = g.text.toList ++ rest') : f = g ∧ rest = rest' := by
  cases f with
  | word v =>
    rw [Legible] at hf
    cases g with
    | word w =>
      rw [Legible] at hg
      rcases hf.append_inj hg hrest hrest' h with ⟨rfl, hrests⟩
      exact ⟨rfl, hrests⟩
    | node head' gs =>
      rw [toList_text_node] at h
      exact absurd h (hf.append_ne rest _)
  | node head fs =>
    rw [Legible] at hf
    rw [toList_text_node] at h
    cases g with
    | word w =>
      rw [Legible] at hg
      exact absurd h.symm (hg.append_ne rest' _)
    | node head' gs =>
      rw [Legible] at hg
      rw [toList_text_node, List.cons_append, List.cons_append, List.append_assoc,
        List.append_assoc] at h
      have hends := endsWord_partsChars fs rest
      have hends' := endsWord_partsChars gs rest'
      rcases hf.1.append_inj hg.1 hends hends' (List.cons.inj h).2 with ⟨rfl, hparts⟩
      rcases parts_inj fs gs hf.2 hg.2 hparts with ⟨rfl, hrests⟩
      exact ⟨rfl, hrests⟩

/-- The parts of a node and what follows them are determined by their text. -/
theorem parts_inj (fs gs : List Form) (hfs : LegibleEach fs) (hgs : LegibleEach gs)
    {rest rest' : List Char} (h : partsChars fs ++ rest = partsChars gs ++ rest') :
    fs = gs ∧ rest = rest' := by
  cases fs with
  | nil =>
    cases gs with
    | nil => exact ⟨rfl, (List.cons.inj h).2⟩
    | cons g gs => exact absurd (List.cons.inj h).1 (by decide)
  | cons f fs =>
    cases gs with
    | nil => exact absurd (List.cons.inj h).1 (by decide)
    | cons g gs =>
      rw [LegibleEach] at hfs hgs
      rw [partsChars, partsChars, List.cons_append, List.cons_append, List.append_assoc,
        List.append_assoc] at h
      have hends := endsWord_partsChars fs rest
      have hends' := endsWord_partsChars gs rest'
      rcases append_inj f g hfs.1 hgs.1 hends hends' (List.cons.inj h).2 with ⟨rfl, hparts⟩
      rcases parts_inj fs gs hfs.2 hgs.2 hparts with ⟨rfl, hrests⟩
      exact ⟨rfl, hrests⟩

end

/-- **Two legible forms with the same text are the same.** -/
theorem eq_of_text_eq {f g : Form} (hf : f.Legible) (hg : g.Legible) (h : f.text = g.text) :
    f = g := by
  have hnil : EndsWord [] := by simp [EndsWord]
  exact (append_inj f g hf hg hnil hnil (by rw [h])).1

end Form

end Lox
