import Abacus.Grammar
import Abacus.Proofs.LiteralValue
import Abacus.Token

set_option autoImplicit false

namespace Abacus

/-- Names and numbers are written as a scan writes them. -/
def Lexeme.IsWritten : Lexeme → Prop
  | name text => isName text = true
  | number text => Literal.IsNormal text
  | _ => True

namespace Lexeme

theorem ofWord_isWritten {c : Char} {taken : List Char} (start : isNameStart c = true)
    (more : taken.all isNameRest = true) : (ofWord (String.ofList (c :: taken))).IsWritten := by
  unfold ofWord
  split
  · trivial
  · rename_i noVar
    split
    · trivial
    · rename_i noIn
      simp only [IsWritten, isName, String.toList_ofList, start, more, Bool.and_true,
        Bool.and_eq_true, bne_iff_ne, ne_eq]
      exact ⟨noVar, noIn⟩

theorem ofDigits_isWritten {c : Char} (digit : Text.isDecimalDigit c = true) (rest : List Char) :
    (ofDigits c rest).1.IsWritten := by
  have hex (digits : List Char) : IsWritten (number (String.ofList ('0' :: 'X' :: digits))) :=
    Or.inl ⟨digits, String.toList_ofList⟩
  unfold ofDigits
  dsimp only
  split
  · exact hex _
  · exact hex _
  · refine Or.inr ?_
    rw [String.toList_ofList]
    refine ⟨List.cons_ne_nil _ _, fun other member => ?_⟩
    rcases List.mem_cons.mp member with rfl | member
    · exact digit
    · exact List.all_eq_true.mp List.all_takeWhile other member

theorem followed_isWritten {joined alone : Lexeme} (whole : joined.IsWritten) (part : alone.IsWritten)
    (rest : List Char) : (followed joined alone rest).1.IsWritten := by
  unfold followed
  split
  · exact whole
  · exact part

theorem first_isWritten (c : Char) (rest : List Char) : (first c rest).1.IsWritten := by
  unfold first
  split
  · rename_i start
    exact ofWord_isWritten start List.all_takeWhile
  · split
    · rename_i digit
      exact ofDigits_isWritten digit rest
    · split <;> first | trivial | exact followed_isWritten (by trivial) (by trivial) rest

def IsScanned (lexeme : Lexeme) : Prop :=
  ∃ c rest, Text.isLayout c = false ∧ (first c rest).1 = lexeme

theorem IsScanned.isWritten {lexeme : Lexeme} (scanned : lexeme.IsScanned) : lexeme.IsWritten := by
  obtain ⟨c, rest, -, rfl⟩ := scanned
  exact first_isWritten c rest

end Lexeme

namespace Scan

theorem length_lexemes (scan : Scan) : scan.lexemes.length = scan.tokens.length :=
  List.length_map _

/-- The lexemes of a text, the first `held` characters of which belong to the lexeme before it. -/
def cut : Nat → List Char → List Lexeme
  | _, [] => []
  | held + 1, _ :: rest => cut held rest
  | 0, c :: rest =>
    if Text.isLayout c then cut 0 rest
    else (Lexeme.first c rest).1 :: cut (Lexeme.first c rest).2 rest

theorem lexemes_ofChars (place : Position) (held : Nat) (text : List Char) :
    (ofChars place held text).lexemes = cut held text := by
  induction text generalizing place held with
  | nil => cases held <;> rfl
  | cons c rest ih =>
      cases held with
      | succ held => exact ih (place.advance c) held
      | zero =>
          unfold ofChars cut
          by_cases layout : Text.isLayout c = true
          · simp only [if_pos layout]
            exact ih (place.advance c) 0
          · simp only [if_neg layout]
            exact congrArg _ (ih (place.advance c) (Lexeme.first c rest).2)

/-- The lexemes of a source text do not depend on places. -/
theorem lexemes_ofSource (source : String) :
    (ofSource source).lexemes = cut 0 (terminated source.toList) :=
  lexemes_ofChars _ _ _

theorem terminated_eq_self {text : List Char} (complete : lacksTerminator text = false) :
    terminated text = text := by
  rw [terminated, complete]
  rfl

/-- A scan adds no terminator to a text that ends in one. -/
theorem terminated_of_lastMark {text : List Char} (last : Text.lastMark? text = some ';') :
    terminated text = text := by
  refine terminated_eq_self ?_
  simp only [lacksTerminator, last, bne_self_eq_false, Bool.false_and]

theorem cut_held (held : Nat) (text : List Char) : cut held text = cut 0 (text.drop held) := by
  induction held generalizing text with
  | zero => rfl
  | succ held ih =>
      cases text with
      | nil => rfl
      | cons c rest => exact ih rest

/-- The lexemes of a scan are those that a scan can cut. -/
theorem cut_areScanned (held : Nat) (text : List Char) :
    ∀ lexeme ∈ cut held text, lexeme.IsScanned := by
  induction text generalizing held with
  | nil => cases held <;> simp only [cut, List.not_mem_nil, false_implies, implies_true]
  | cons c rest ih =>
      cases held with
      | succ held => exact ih held
      | zero =>
          unfold cut
          by_cases layout : Text.isLayout c = true
          · rw [if_pos layout]
            exact ih 0
          · rw [if_neg layout]
            intro lexeme member
            rcases List.mem_cons.mp member with rfl | member
            · exact ⟨c, rest, Bool.eq_false_iff.mpr layout, rfl⟩
            · exact ih _ lexeme member

theorem lexemes_areScanned (source : String) :
    ∀ lexeme ∈ (ofSource source).lexemes, lexeme.IsScanned := by
  rw [lexemes_ofSource]
  exact cut_areScanned 0 _

theorem lexemes_areWritten (source : String) :
    ∀ lexeme ∈ (ofSource source).lexemes, lexeme.IsWritten :=
  fun lexeme member => (lexemes_areScanned source lexeme member).isWritten

end Scan

end Abacus
