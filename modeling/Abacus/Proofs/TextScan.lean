import Abacus.Proofs.CanonicalShape

set_option autoImplicit false

namespace Abacus

namespace Lexeme

theorem takeWhile_append {p : Char → Bool} {taken rest : List Char} (all : ∀ c ∈ taken, p c = true)
    (ends : ∀ c ∈ rest.head?, p c = false) : (taken ++ rest).takeWhile p = taken := by
  rw [List.takeWhile_append_of_pos all]
  cases rest with
  | nil => exact List.append_nil taken
  | cons c rest =>
      rw [List.takeWhile_cons, ends c rfl]
      exact List.append_nil taken

theorem isNameRest_of_digit {c : Char} (digit : Text.isDecimalDigit c = true) :
    isNameRest c = true := by
  rw [isNameRest, digit, Bool.or_true]

theorem toNat_of_isNameStart {c : Char} (start : isNameStart c = true) : 65 ≤ c.toNat := by
  have letters : isNameStart c = (decide ('A'.val ≤ c.val ∧ c.val ≤ 'Z'.val) ||
      decide ('a'.val ≤ c.val) && decide (c.val ≤ 'z'.val) || c == '_') := rfl
  simp only [letters, Bool.or_eq_true, Bool.and_eq_true, decide_eq_true_eq, beq_iff_eq] at start
  rcases start with (⟨upper, -⟩ | ⟨lower, -⟩) | rfl
  · exact UInt32.le_iff_toNat_le.mp upper
  · have above : 97 ≤ c.toNat := UInt32.le_iff_toNat_le.mp lower
    omega
  · decide

theorem isNameStart_of_digit {c : Char} (digit : Text.isDecimalDigit c = true) :
    isNameStart c = false := by
  simp only [Text.isDecimalDigit, Text.decimalDigit?, Option.isSome_ite] at digit
  have small : c.toNat ≤ 57 := digit.2
  rw [← Bool.not_eq_true]
  intro start
  have large := toNat_of_isNameStart start
  omega

theorem isLayout_of_isNameRest {c : Char} (more : isNameRest c = true) :
    Text.isLayout c = false := by
  rw [← Bool.not_eq_true]
  intro layout
  simp only [Text.isLayout, Bool.or_eq_true, beq_iff_eq] at layout
  rcases layout with ((rfl | rfl) | rfl) | rfl <;> cases more

/-- A mark that no equals sign follows stands alone. -/
theorem followed_alone {joined alone : Lexeme} {c : Char} {rest : List Char} (other : c ≠ '=') :
    followed joined alone (c :: rest) = (alone, 0) := by
  unfold followed
  split
  · rename_i same
    exact absurd (List.cons.inj same).1 other
  · rfl

theorem first_word {c : Char} (start : isNameStart c = true) (rest : List Char) :
    first c rest = (ofWord (String.ofList (c :: rest.takeWhile isNameRest)),
      (rest.takeWhile isNameRest).length) :=
  if_pos start

theorem first_digit {c : Char} (digit : Text.isDecimalDigit c = true) (rest : List Char) :
    first c rest = ofDigits c rest :=
  (if_neg (Bool.eq_false_iff.mp (isNameStart_of_digit digit))).trans (if_pos digit)

/-- The text of a number is a digit and the digits after it. -/
theorem repr_digits (n : Nat) : ∃ c others, n.repr.toList = c :: others ∧
    Text.isDecimalDigit c = true ∧ ∀ d ∈ others, Text.isDecimalDigit d = true := by
  have digits := Literal.isDecimalDigit_of_places (Literal.places_toDigits n)
  rw [← Nat.toList_repr] at digits
  cases written : n.repr.toList with
  | nil =>
      rw [Nat.toList_repr] at written
      exact absurd written Nat.toDigits_ne_nil
  | cons c others =>
      rw [written] at digits
      exact ⟨c, others, rfl, List.forall_mem_cons.mp digits⟩

/-- A name is a letter and what names go on with. -/
theorem letters_of_isName {text : String} (named : isName text = true) :
    ∃ c others, text.toList = c :: others ∧ isNameStart c = true ∧
      ∀ d ∈ others, isNameRest d = true := by
  simp only [isName, Bool.and_eq_true] at named
  obtain ⟨-, letters⟩ := named
  cases written : text.toList with
  | nil =>
      rw [written] at letters
      cases letters
  | cons c others =>
      simp only [written, Bool.and_eq_true, List.all_eq_true] at letters
      exact ⟨c, others, rfl, letters⟩

theorem ofWord_of_isName {text : String} (named : isName text = true) : ofWord text = name text := by
  simp only [isName, Bool.and_eq_true, bne_iff_ne, ne_eq] at named
  rw [ofWord, if_neg named.1.1, if_neg named.1.2]

end Lexeme

namespace Scan

open Lexeme

/-- Nothing at the start of the text goes on with a word or a number. -/
def Apart (text : List Char) : Prop := ∀ c ∈ text.head?, isNameRest c = false

theorem apart_cons {c : Char} {rest : List Char} (ends : isNameRest c = false) :
    Apart (c :: rest) := by
  intro other same
  cases same
  exact ends

theorem Apart.noDigit {rest : List Char} (apart : Apart rest) :
    ∀ c ∈ rest.head?, Text.isDecimalDigit c = false := by
  intro c same
  rw [← Bool.not_eq_true]
  intro digit
  have ends := apart c same
  rw [isNameRest_of_digit digit] at ends
  cases ends

theorem cut_first {c : Char} (visible : Text.isLayout c = false) (rest : List Char) :
    cut 0 (c :: rest) = (first c rest).1 :: cut 0 (rest.drop (first c rest).2) := by
  rw [cut, if_neg (Bool.eq_false_iff.mp visible), cut_held]

/-- A sign of one character is cut by itself. -/
theorem cut_sign {c : Char} {lexeme : Lexeme} {rest : List Char} (visible : Text.isLayout c = false)
    (stands : first c rest = (lexeme, 0)) : cut 0 (c :: rest) = lexeme :: cut 0 rest := by
  rw [cut_first visible, stands]
  rfl

theorem cut_word {c : Char} {taken rest : List Char} (start : isNameStart c = true)
    (more : ∀ c ∈ taken, isNameRest c = true) (apart : Apart rest) :
    cut 0 (c :: (taken ++ rest)) = ofWord (String.ofList (c :: taken)) :: cut 0 rest := by
  have visible : Text.isLayout c = false :=
    isLayout_of_isNameRest (by rw [isNameRest, start, Bool.true_or])
  rw [cut_first visible, first_word start, takeWhile_append more apart]
  simp only [List.drop_left]

theorem cut_name {text : String} {rest : List Char} (named : isName text = true)
    (apart : Apart rest) : cut 0 (text.toList ++ rest) = .name text :: cut 0 rest := by
  obtain ⟨c, others, written, start, more⟩ := letters_of_isName named
  rw [written, List.cons_append, cut_word start more apart, ← written, String.ofList_toList,
    ofWord_of_isName named]

theorem ofDigits_append {c : Char} {taken rest : List Char}
    (digits : ∀ c ∈ taken, Text.isDecimalDigit c = true) (apart : Apart rest) :
    ofDigits c (taken ++ rest) = (.number (String.ofList (c :: taken)), taken.length) := by
  have unmarked {mark : Char} {after : List Char} (letter : Text.isDecimalDigit mark = false)
      (more : isNameRest mark = true) : taken ++ rest ≠ mark :: after := by
    intro marked
    cases taken with
    | nil =>
        have ends := apart mark (by rw [← List.nil_append rest, marked]; rfl)
        rw [more] at ends
        cases ends
    | cons d others =>
        obtain ⟨rfl, _⟩ := List.cons.inj marked
        rw [digits d List.mem_cons_self] at letter
        cases letter
  unfold ofDigits
  split
  · rename_i marked
    exact absurd marked (unmarked rfl rfl)
  · rename_i marked
    exact absurd marked (unmarked rfl rfl)
  · rw [takeWhile_append digits apart.noDigit]

theorem cut_digits {c : Char} {taken rest : List Char} (digit : Text.isDecimalDigit c = true)
    (digits : ∀ c ∈ taken, Text.isDecimalDigit c = true) (apart : Apart rest) :
    cut 0 (c :: (taken ++ rest)) = .number (String.ofList (c :: taken)) :: cut 0 rest := by
  have visible : Text.isLayout c = false := isLayout_of_isNameRest (isNameRest_of_digit digit)
  rw [cut_first visible, first_digit digit, ofDigits_append digits apart]
  simp only [List.drop_left]

theorem cut_repr (n : Nat) {rest : List Char} (apart : Apart rest) :
    cut 0 (n.repr.toList ++ rest) = .number n.repr :: cut 0 rest := by
  obtain ⟨c, others, written, digit, digits⟩ := repr_digits n
  rw [written, List.cons_append, cut_digits digit digits apart, ← written, String.ofList_toList]

theorem cut_value {value : Int64} (nonneg : 0 ≤ value) {rest : List Char} (apart : Apart rest) :
    cut 0 ((toString value).toList ++ rest) = .ofValue value :: cut 0 rest := by
  rw [ofValue, toString_of_nonneg nonneg]
  exact cut_repr _ apart

/-- The numbers of a set are cut at the commas between them, up to the bracket after the last. -/
theorem cut_values {values : List Int64} (nonneg : ∀ value ∈ values, 0 ≤ value)
    (rest : List Char) :
    cut 0 ((", ".intercalate (values.map toString)).toList ++ ']' :: rest) =
      ofValues values ++ .rbracket :: cut 0 rest := by
  have bracket : cut 0 (']' :: rest) = .rbracket :: cut 0 rest := cut_sign rfl rfl
  induction values with
  | nil => exact bracket
  | cons value others ih =>
      obtain ⟨head, tail⟩ := List.forall_mem_cons.mp nonneg
      cases others with
      | nil =>
          rw [List.map_singleton, String.intercalate_singleton, cut_value head (apart_cons rfl),
            bracket]
          rfl
      | cons next others =>
          have spaced (after : List Char) : ", ".toList ++ after = ',' :: ' ' :: after := rfl
          have comma (after : List Char) : cut 0 (',' :: ' ' :: after) = .comma :: cut 0 after :=
            cut_sign rfl rfl
          rw [List.map_cons, List.map_cons, String.intercalate_cons_cons, String.toList_append,
            String.toList_append, List.append_assoc, List.append_assoc, spaced,
            cut_value head (apart_cons rfl), comma, ← List.map_cons, ih tail]
          rfl

/-- An infix operator is cut from the space after it. -/
theorem cut_connective (op : Connective) (rest : List Char) :
    cut 0 (op.symbol.toList ++ ' ' :: rest) = .connective op :: cut 0 rest := by
  cases op with
  | binary op => cases op <;> rfl
  | logic op => cases op <;> rfl

/-- A text with an infix operator in it is cut at the operator. -/
theorem cut_joined {before after : String} {first second : List Lexeme} {rest : List Char}
    (op : Connective)
    (cutBefore : ∀ {rest}, Apart rest → cut 0 (before.toList ++ rest) = first ++ cut 0 rest)
    (cutAfter : cut 0 (after.toList ++ rest) = second ++ cut 0 rest) :
    cut 0 ((before ++ " " ++ op.symbol ++ " " ++ after).toList ++ rest) =
      first ++ .connective op :: second ++ cut 0 rest := by
  have spaced (after : List Char) : " ".toList ++ after = ' ' :: after := rfl
  have skipped (after : List Char) : cut 0 (' ' :: after) = cut 0 after := rfl
  simp only [String.toList_append, List.append_assoc, spaced, List.cons_append]
  rw [cutBefore (apart_cons rfl), skipped, cut_connective, cutAfter]

section Marks

variable {before : String} {first : List Lexeme}
  (cutBefore : ∀ {rest}, Apart rest → cut 0 (before.toList ++ rest) = first ++ cut 0 rest)

include cutBefore

/-- A condition is cut at the mark behind it. -/
theorem cut_question (rest : List Char) :
    cut 0 (before.toList ++ (" ? ".toList ++ rest)) = first ++ .question :: cut 0 rest := by
  have asked : " ? ".toList ++ rest = ' ' :: '?' :: ' ' :: rest := rfl
  rw [asked, cutBefore (apart_cons rfl)]
  rfl

/-- The first branch of a ternary is cut at the mark behind it. -/
theorem cut_colon (rest : List Char) :
    cut 0 (before.toList ++ (" : ".toList ++ rest)) = first ++ .colon :: cut 0 rest := by
  have parted : " : ".toList ++ rest = ' ' :: ':' :: ' ' :: rest := rfl
  rw [parted, cutBefore (apart_cons rfl)]
  rfl

end Marks

end Scan

namespace Expr

open Lexeme Scan

/-- The text of a canonical tree does not start with the sign that would join a mark before it. -/
theorem IsCanonical.text_head {e : Expr} (canonical : e.IsCanonical) :
    ∃ c more, e.text.toList = c :: more ∧ c ≠ '=' := by
  induction e with
  | number value =>
      obtain ⟨c, others, written, digit, -⟩ := repr_digits value.toNatClampNeg
      simp only [text, toString_of_nonneg canonical]
      refine ⟨c, others, written, ?_⟩
      rintro rfl
      cases digit
  | name named =>
      obtain ⟨c, others, written, start, -⟩ := letters_of_isName canonical
      refine ⟨c, others, written, ?_⟩
      rintro rfl
      cases start
  | unary op operand =>
      cases op with
      | neg => exact ⟨'-', _, String.toList_append, by decide⟩
      | not => exact ⟨'!', _, String.toList_append, by decide⟩
  | paren inner =>
      refine ⟨'(', inner.text.toList ++ [')'], ?_, by decide⟩
      simp only [text, String.toList_append, List.append_assoc]
      rfl
  | binary op left right ih =>
      obtain ⟨c, more, written, other⟩ := ih canonical.2.2.1
      simp only [text, String.toList_append, written, List.cons_append]
      exact ⟨c, _, rfl, other⟩
  | logic op left right ih =>
      obtain ⟨c, more, written, other⟩ := ih canonical.2.2.1
      simp only [text, String.toList_append, written, List.cons_append]
      exact ⟨c, _, rfl, other⟩
  | member value set ih =>
      obtain ⟨c, more, written, other⟩ := ih canonical.2.2.2
      simp only [text, String.toList_append, written, List.cons_append]
      exact ⟨c, _, rfl, other⟩
  | ternary condition yes no ih =>
      obtain ⟨c, more, written, other⟩ := ih canonical.2.1
      simp only [text, String.toList_append, written, List.cons_append]
      exact ⟨c, _, rfl, other⟩

/-- The text of a canonical tree is cut into the lexemes of the tree. -/
theorem IsCanonical.cut_text {e : Expr} (canonical : e.IsCanonical) {rest : List Char}
    (apart : Apart rest) : cut 0 (e.text.toList ++ rest) = e.lexemes ++ cut 0 rest := by
  induction e generalizing rest with
  | number value => exact cut_value canonical apart
  | name named => exact cut_name canonical apart
  | unary op operand ih =>
      have body := ih canonical.2 apart
      obtain ⟨c, more, written, other⟩ := canonical.2.text_head
      simp only [text, String.toList_append, List.append_assoc]
      cases op with
      | neg => exact (cut_sign rfl rfl).trans (congrArg _ body)
      | not =>
          have alone : first '!' (operand.text.toList ++ rest) = (.bang, 0) := by
            rw [written]
            exact followed_alone other
          exact (cut_sign rfl alone).trans (congrArg _ body)
  | paren inner ih =>
      have opened (after : List Char) : "(".toList ++ after = '(' :: after := rfl
      have cutOpened (after : List Char) : cut 0 ('(' :: after) = .lparen :: cut 0 after :=
        cut_sign rfl rfl
      have closed : ")".toList ++ rest = ')' :: rest := rfl
      have cutClosed : cut 0 (')' :: rest) = .rparen :: cut 0 rest := cut_sign rfl rfl
      simp only [text, String.toList_append, List.append_assoc]
      rw [opened, closed, cutOpened, ih canonical (apart_cons rfl), cutClosed]
      simp only [lexemes, List.append_assoc, List.cons_append, List.nil_append]
  | binary op left right ihLeft ihRight =>
      obtain ⟨-, -, canonicalLeft, canonicalRight⟩ := canonical
      exact cut_joined (.binary op) (ihLeft canonicalLeft) (ihRight canonicalRight apart)
  | logic op left right ihLeft ihRight =>
      obtain ⟨-, -, canonicalLeft, canonicalRight⟩ := canonical
      exact cut_joined (.logic op) (ihLeft canonicalLeft) (ihRight canonicalRight apart)
  | member value set ih =>
      obtain ⟨-, -, nonneg, canonicalValue⟩ := canonical
      have opened (after : List Char) :
          " in [".toList ++ after = ' ' :: 'i' :: 'n' :: ' ' :: '[' :: after := rfl
      have cutOpened (after : List Char) :
          cut 0 (' ' :: 'i' :: 'n' :: ' ' :: '[' :: after) = .isIn :: .lbracket :: cut 0 after := rfl
      have closed : "]".toList ++ rest = ']' :: rest := rfl
      simp only [text, String.toList_append, List.append_assoc]
      rw [opened, closed, ih canonicalValue (apart_cons rfl), cutOpened, cut_values nonneg]
      simp only [lexemes, List.append_assoc, List.cons_append, List.nil_append]
  | ternary condition yes no ihCondition ihYes ihNo =>
      obtain ⟨-, canonicalCondition, canonicalYes, canonicalNo⟩ := canonical
      simp only [text, String.toList_append, List.append_assoc]
      rw [cut_question (ihCondition canonicalCondition), cut_colon (ihYes canonicalYes),
        ihNo canonicalNo apart]
      simp only [lexemes, List.append_assoc, List.cons_append]

end Expr

end Abacus
