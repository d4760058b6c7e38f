import Lox.Proofs.Parser.Naturality
import Lox.Proofs.Parser.Progress
import Mathlib.Data.List.Forall2

/-!
# A list without an end

A list of tokens need not have an end of input.  It is read as if there were one on line zero, and
what stands after an end of input is never looked at.  So the same tokens before an end, before an
end with more behind it, and before nothing are the same program (`exists_parse_append`), and only
the line of the errors at the end can tell them apart (`GrammarError.AlikeButEnd`).
-/

namespace Lox

/-! ### Errors at the end -/

theorem Location.ofToken_eq_end_iff (t : Token) :
    Location.ofToken t = .endOfInput ↔ t.kind = .eof := by
  unfold Location.ofToken Token.isEof
  split <;> simp_all

theorem Location.text_eq_end_iff (place : Location) :
    place.text = " at end" ↔ place = .endOfInput := by
  cases place with
  | endOfInput => exact ⟨fun _ => rfl, fun _ => rfl⟩
  | token lexeme =>
    refine ⟨fun h => ?_, nofun⟩
    have hchars := congrArg String.toList h
    simp [Location.text, String.toList_append] at hchars

/-- Two errors have the same place and the same message, and they are on the same line unless they
are at the end of the input.  There the first is on the given line and the second on line zero. -/
def GrammarError.AlikeButEnd (line : Int32) (a b : GrammarError) : Prop :=
  a.location.text = b.location.text ∧ a.message = b.message ∧
    if a.location.text = " at end" then a.line = line ∧ b.line = 0 else a.line = b.line

namespace Parser

variable {u : List Token}

/-- A failure is an error at the end only if it names no token, as those that it can name are not
ends of input. -/
theorem alikeButEnd_toError {as : List Stmt} {rest : List Token} {log : List Failure}
    (hu : Inside u) (h : program u = ⟨.ok as, rest, log⟩) {f : Failure} (hf : f ∈ log) {e : Token}
    (he : e.kind = .eof) : (f.toError e).AlikeButEnd e.line (f.toError ⟨.eof, "", 0⟩) := by
  obtain ⟨fault, found⟩ := f
  cases found with
  | none =>
    have hplace : ∀ t : Token, t.kind = .eof →
        (Failure.toError t ⟨fault, none⟩).location = .endOfInput :=
      fun t => (Location.ofToken_eq_end_iff t).mpr
    refine ⟨?_, rfl, ?_⟩
    · rw [hplace e he, hplace _ rfl]
    · rw [if_pos ((Location.text_eq_end_iff _).mpr (hplace e he))]
      exact ⟨rfl, rfl⟩
  | some t =>
    have ht := hu t (mem_of_mem_log_program h hf rfl)
    have hplace : (Failure.toError e ⟨fault, some t⟩).location.text ≠ " at end" := by
      rw [ne_eq, Location.text_eq_end_iff]
      exact fun hend => ht ((Location.ofToken_eq_end_iff t).mp hend)
    refine ⟨rfl, rfl, ?_⟩
    rw [if_neg hplace]
    rfl

/-! ### Programs -/

theorem endToken_append (hu : Inside u) {v : List Token} (hv : Closing v) :
    Program.endToken (u ++ v) = v.head?.getD ⟨.eof, "", 0⟩ := by
  rw [Program.endToken, ← head?_tail, tail_append hu hv]

/-- **Whatever closes the tokens, the same is read and the same goes wrong.**  It only names the end
of the input. -/
theorem exists_parse_append (hu : Inside u) : ∃ as rest log, program u = ⟨.ok as, rest, log⟩ ∧
    ∀ v, Closing v →
      parse (u ++ v) = ⟨as, log.map (Failure.toError (v.head?.getD ⟨.eof, "", 0⟩))⟩ := by
  obtain ⟨as, rest, log, hprogram, -⟩ := exists_parse_eq (u ++ [])
  rw [body_append hu [] nofun] at hprogram
  refine ⟨as, rest, log, hprogram, fun v hv => ?_⟩
  rw [parse, body_append hu v hv, endToken_append hu hv, hprogram]
  rfl

/-- **A missing end of input, and anything behind one that is there, changes nothing** but the line
of the errors at the end.  Tokens without an end of input, and the same tokens before an end and any
others, are read as the same statements and have the same errors in the same order, with the same
places and messages.  An error at the end of the input is on the line of the end, or on line zero if
there is none; any other is on the same line.  The reader that walks along the whole list reads both
lists so. -/
theorem parse_without_end {ts : List Token} (hts : ∀ t ∈ ts, t.kind ≠ .eof) {e : Token}
    (he : e.kind = .eof) (junk : List Token) :
    (parse (ts ++ [e] ++ junk)).statements = (parse ts).statements ∧
      List.Forall₂ (GrammarError.AlikeButEnd e.line) (parse (ts ++ [e] ++ junk)).errors
        (parse ts).errors ∧
      ∃ R : Reader, R.expand = R ∧
        R.program (ts ++ [e] ++ junk) = parse (ts ++ [e] ++ junk) ∧ R.program ts = parse ts := by
  obtain ⟨as, rest, log, hprogram, hparse⟩ := exists_parse_append hts
  have hend : Closing ([e] ++ junk) := by
    intro t ht
    obtain rfl : e = t := Option.some.inj ht
    exact he
  have hclosed := hparse ([e] ++ junk) hend
  have hopen := hparse [] nofun
  rw [← List.append_assoc] at hclosed
  rw [List.append_nil] at hopen
  refine ⟨by rw [hclosed, hopen], ?_, Reader.cutting, Reader.expand_eq_iff.mpr rfl,
    Reader.program_cutting _, Reader.program_cutting _⟩
  rw [hclosed, hopen, List.forall₂_map_left_iff, List.forall₂_map_right_iff, List.forall₂_same]
  intro f hf
  exact alikeButEnd_toError hts hprogram hf he

/-- A stray parenthesis on the second line, and a `print` without a value at the end.  Behind the
end on line seven stands a statement with an end of its own. -/
theorem parse_without_end_stray_parenthesis :
    let ts : List Token := [⟨.symbol .rightParen, ")", 2⟩, ⟨.symbol .semicolon, ";", 2⟩,
      ⟨.keyword .printKw, "print", 3⟩]
    let e : Token := ⟨.eof, "", 7⟩
    let junk : List Token := [⟨.keyword .nilKw, "nil", 8⟩, ⟨.symbol .semicolon, ";", 8⟩,
      ⟨.eof, "", 9⟩]
    ((∀ t ∈ ts, t.kind ≠ .eof) ∧ e.kind = .eof) ∧
      ((parse (ts ++ [e] ++ junk)).errors.map GrammarError.line = [2, 7] ∧
        (parse ts).errors.map GrammarError.line = [2, 0]) ∧
      (parse (ts ++ [e] ++ junk)).statements = (parse ts).statements ∧
      List.Forall₂ (GrammarError.AlikeButEnd 7) (parse (ts ++ [e] ++ junk)).errors
        (parse ts).errors := by
  intro ts e junk
  have hts : ∀ t ∈ ts, t.kind ≠ .eof := by decide
  obtain ⟨hstatements, herrors, -⟩ := parse_without_end hts (e := e) rfl junk
  exact ⟨⟨hts, rfl⟩, by decide, hstatements, herrors⟩

end Parser

end Lox
