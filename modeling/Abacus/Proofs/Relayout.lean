import Abacus.Proofs.LexemeText
import Abacus.Proofs.ScanConcat

set_option autoImplicit false

namespace Abacus

namespace Scan

theorem offset_le_positionAt (place : Position) (held : Nat) (text : List Char) (index : Nat) :
    place.offset ≤ ((ofChars place held text).positionAt index).offset := by
  induction text generalizing place held index with
  | nil => cases held <;> exact Nat.le_refl _
  | cons c rest ih =>
      have later (held index : Nat) :
          place.offset ≤ ((ofChars (place.advance c) held rest).positionAt index).offset := by
        have found := ih (place.advance c) held index
        rw [Position.offset_advance] at found
        exact Nat.le_of_succ_le found
      cases held with
      | succ held => exact later held index
      | zero =>
          by_cases layout : Text.isLayout c = true
          · rw [ofChars_of_layout layout]
            exact later 0 index
          · rw [ofChars_of_visible layout]
            cases index with
            | zero => exact Nat.le_refl _
            | succ index => exact later _ index

/-- Tokens stand one behind the other, and all of them before the end of the text. -/
theorem offset_positionAt_lt {place : Position} {held : Nat} {text : List Char} {first second : Nat}
    (before : first < second)
    (inside : second ≤ (ofChars place held text).tokens.length) :
    ((ofChars place held text).positionAt first).offset <
      ((ofChars place held text).positionAt second).offset := by
  induction text generalizing place held first second with
  | nil =>
      have empty : (ofChars place held []).tokens = [] := by cases held <;> rfl
      rw [empty, List.length_nil] at inside
      omega
  | cons c rest ih =>
      cases held with
      | succ held => exact ih before inside
      | zero =>
          by_cases layout : Text.isLayout c = true
          · rw [ofChars_of_layout layout] at inside ⊢
            exact ih before inside
          · rw [ofChars_of_visible layout] at inside ⊢
            obtain ⟨second, rfl⟩ := Nat.exists_eq_succ_of_ne_zero (Nat.ne_zero_of_lt before)
            cases first with
            | zero =>
                have later := offset_le_positionAt (place.advance c) (Lexeme.first c rest).2 rest second
                rw [Position.offset_advance] at later
                exact later
            | succ first => exact ih (Nat.lt_of_succ_lt_succ before) (Nat.le_of_succ_le_succ inside)

theorem positionAt_inj {source : String} {first second : Nat}
    (firstInside : first ≤ (ofSource source).tokens.length)
    (secondInside : second ≤ (ofSource source).tokens.length)
    (same : (ofSource source).positionAt first = (ofSource source).positionAt second) : first = second := by
  have offsets := congrArg Position.offset same
  rcases Nat.lt_trichotomy first second with before | equal | after
  · exact absurd offsets (Nat.ne_of_lt (offset_positionAt_lt before secondInside))
  · exact equal
  · exact absurd offsets.symm (Nat.ne_of_lt (offset_positionAt_lt after firstInside))

/-- The lexemes of any text, written anew with layout between and a line feed somewhere, are found again. -/
theorem lexemes_written {source : String} {pieces : List (Lexeme × List Char)}
    (same : pieces.map (·.1) = (ofSource source).lexemes) (spaced : ∀ piece ∈ pieces, Separates piece.2)
    (newline : '\n' ∈ written pieces) :
    (ofSource (String.ofList (written pieces))).lexemes = (ofSource source).lexemes := by
  have scanned : ∀ piece ∈ pieces, piece.1.IsScanned := fun piece member =>
    lexemes_areScanned source piece.1 (same ▸ List.mem_map_of_mem member)
  have complete : lacksTerminator (written pieces) = false :=
    lacksTerminator_eq_false_iff.mpr (Or.inl newline)
  rw [lexemes_ofSource, String.toList_ofList, terminated_eq_self complete, cut_written scanned spaced, same]

end Scan

namespace Program

open Scan

variable {limit : Nat} {source first second : String} {problem : Problem} {index : Nat}

theorem haltIndex_le (scan : Scan) (halt : Halt) : scan.haltIndex halt ≤ scan.tokens.length :=
  Nat.sub_le _ _

theorem parse_eq_error_iff (inside : index ≤ (ofSource source).tokens.length) :
    parse limit source = .error ⟨problem, (ofSource source).positionAt index⟩ ↔
      ∃ halt, Read.program limit (ofSource source).lexemes = .error halt ∧ halt.problem = problem ∧
        (ofSource source).haltIndex halt = index := by
  constructor
  · intro failed
    obtain ⟨halt, halts, same⟩ := exists_halt_of_parse failed
    obtain ⟨sameProblem, samePlace⟩ := ParseError.mk.inj same
    exact ⟨halt, halts, sameProblem.symm, positionAt_inj (haltIndex_le _ _) inside samePlace.symm⟩
  · rintro ⟨halt, halts, rfl, rfl⟩
    simp only [parse, halts, Except.mapError, Scan.error]

/-- Two texts parse alike under a limit: both to the same program, or both to the same problem at the token with the
same index; the end of the text has an index too. -/
structure ParseAlike (limit : Nat) (first second : String) : Prop where
  program (program : Program) : parse limit first = .ok program ↔ parse limit second = .ok program
  problem (problem : Problem) (index : Nat) (inside : index ≤ (ofSource first).tokens.length) :
    parse limit first = .error ⟨problem, (ofSource first).positionAt index⟩ ↔
      parse limit second = .error ⟨problem, (ofSource second).positionAt index⟩
  located (error : ParseError) (failed : parse limit first = .error error) :
    ∃ index ≤ (ofSource first).tokens.length, error.position = (ofSource first).positionAt index

/-- Texts with the same lexemes parse alike. -/
theorem parseAlike_of_lexemes (same : (ofSource first).lexemes = (ofSource second).lexemes) :
    ParseAlike limit first second where
  program program := by rw [parse_eq_ok_iff_read, parse_eq_ok_iff_read, same]
  problem problem index inside := by
    have sameLength : (ofSource first).tokens.length = (ofSource second).tokens.length := by
      rw [← length_lexemes, ← length_lexemes, same]
    have sameIndex (halt : Halt) : (ofSource first).haltIndex halt = (ofSource second).haltIndex halt := by
      rw [haltIndex, haltIndex, sameLength]
    rw [parse_eq_error_iff inside, parse_eq_error_iff (sameLength ▸ inside), same]
    simp only [sameIndex]
  located error failed := by
    obtain ⟨halt, halts, rfl⟩ := exists_halt_of_parse failed
    exact ⟨_, haltIndex_le _ _, rfl⟩

/-- Texts with the same lexemes parse alike under every limit, and the lexemes of any text, written anew in order with
some layout behind each and a line feed somewhere, make a text with the same lexemes; programs and malformed texts
alike, only places change. -/
theorem parse_layout :
    (∀ (limit : Nat) (first second : String),
      (ofSource first).lexemes = (ofSource second).lexemes → ParseAlike limit first second) ∧
    ∀ (source : String) (pieces : List (Lexeme × List Char)),
      pieces.map (·.1) = (ofSource source).lexemes → (∀ piece ∈ pieces, Separates piece.2) →
        '\n' ∈ written pieces →
          (ofSource (String.ofList (written pieces))).lexemes = (ofSource source).lexemes ∧
            ∀ limit, ParseAlike limit source (String.ofList (written pieces)) := by
  refine ⟨fun limit first second same => parseAlike_of_lexemes same,
    fun source pieces same spaced newline => ?_⟩
  have kept := lexemes_written same spaced newline
  exact ⟨kept, fun limit => parseAlike_of_lexemes kept.symm⟩

/-- The lexemes of a malformed text of one line, laid out on three lines. -/
def malformedPieces : List (Lexeme × List Char) :=
  [(.number "1", ['\r', '\n']), (.unknown '@', ['\t']), (.number "0XAB", [' ']), (.logic .and, [' ', '\n'])]

/-- A number in base sixteen, a sign that is none and an ampersand that took the terminator with it keep their lexemes
in another layout, and the parse its problem. -/
theorem parse_layout_malformed :
    malformedPieces.map (·.1) = (ofSource "1 @ 0xab&").lexemes ∧
    (∀ piece ∈ malformedPieces, Separates piece.2) ∧ '\n' ∈ written malformedPieces ∧
    (ofSource "1\r\n@\t0XAB && \n").lexemes = (ofSource "1 @ 0xab&").lexemes ∧
    ParseAlike 3 "1 @ 0xab&" "1\r\n@\t0XAB && \n" := by
  have same : malformedPieces.map (·.1) = (ofSource "1 @ 0xab&").lexemes := by cbv
  have spaced : ∀ piece ∈ malformedPieces, Separates piece.2 := by
    simp [malformedPieces, Separates, Text.isLayout]
  have newline : '\n' ∈ written malformedPieces := by decide
  have text : String.ofList (written malformedPieces) = "1\r\n@\t0XAB && \n" := by cbv
  obtain ⟨kept, -⟩ := parse_layout.2 _ _ same spaced newline
  rw [text] at kept
  exact ⟨same, spaced, newline, kept, parse_layout.1 3 _ _ kept.symm⟩

end Program

end Abacus
