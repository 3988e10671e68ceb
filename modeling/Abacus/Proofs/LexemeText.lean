import Abacus.Proofs.TextScan

set_option autoImplicit false

namespace Abacus

namespace Text

variable {c : Char}

theorem eq_of_isLayout (layout : isLayout c = true) : c = ' ' ∨ c = '\t' ∨ c = '\n' ∨ c = '\r' := by
  simp only [isLayout, Bool.or_eq_true, beq_iff_eq] at layout
  rcases layout with ((space | tab) | line) | carriage
  · exact Or.inl space
  · exact Or.inr (Or.inl tab)
  · exact Or.inr (Or.inr (Or.inl line))
  · exact Or.inr (Or.inr (Or.inr carriage))

theorem toNat_lt_of_isHexDigit (digit : isHexDigit c = true) : c.toNat < 103 := by
  have below {limit : Char} (bounded : c ≤ limit) : c.toNat ≤ limit.toNat :=
    UInt32.le_iff_toNat_le.mp bounded
  unfold isHexDigit hexDigit? at digit
  split at digit
  · rename_i range
    exact Nat.lt_of_le_of_lt (below range.2) (by decide)
  · split at digit
    · rename_i range
      exact Nat.lt_of_le_of_lt (below range.2) (by decide)
    · split at digit
      · rename_i range
        exact Nat.lt_of_le_of_lt (below range.2) (by decide)
      · cases digit

/-- What holds of the hexadecimal digits among the first characters holds of every one: there are no others. -/
@[elab_as_elim]
theorem of_isHexDigit {motive : Char → Prop} (digit : isHexDigit c = true)
    (small : ∀ n < 103, isHexDigit (Char.ofNat n) = true → motive (Char.ofNat n)) : motive c := by
  have found := small c.toNat (toNat_lt_of_isHexDigit digit)
  rw [Char.ofNat_toNat] at found
  exact found digit

/-- The capital of a hexadecimal digit is a digit too, and its own capital. -/
theorem toUpper_of_isHexDigit (digit : isHexDigit c = true) :
    isHexDigit c.toUpper = true ∧ c.toUpper.toUpper = c.toUpper :=
  of_isHexDigit digit (by decide +kernel)

end Text

namespace Lexeme

theorem text_ofWord (word : String) : (ofWord word).text = word := by
  unfold ofWord
  split
  · rename_i same
    exact same.symm
  · split
    · rename_i same
      exact same.symm
    · rfl

end Lexeme

namespace Scan

open Lexeme

variable {c d : Char} {rest : List Char}

theorem apart_of_isLayout (layout : Text.isLayout c = true) : Apart (c :: rest) := by
  refine apart_cons ?_
  rw [← Bool.not_eq_true]
  intro more
  rw [isLayout_of_isNameRest more] at layout
  cases layout

theorem isHexDigit_of_isLayout (layout : Text.isLayout c = true) : Text.isHexDigit c = false := by
  rcases Text.eq_of_isLayout layout with rfl | rfl | rfl | rfl <;> decide

/-- A hexadecimal number is cut from its text, its digits in capitals. -/
theorem cut_hex {digits : List Char} (hex : ∀ d ∈ digits, Text.isHexDigit d = true)
    (layout : Text.isLayout c = true) :
    cut 0 ('0' :: 'X' :: (digits.map Char.toUpper ++ c :: rest)) =
      .number (String.ofList ('0' :: 'X' :: digits.map Char.toUpper)) :: cut 0 (c :: rest) := by
  have capitals : ∀ d ∈ digits.map Char.toUpper, Text.isHexDigit d = true ∧ d.toUpper = d := by
    intro d member
    obtain ⟨digit, inside, rfl⟩ := List.mem_map.mp member
    exact Text.toUpper_of_isHexDigit (hex digit inside)
  have taken : (digits.map Char.toUpper ++ c :: rest).takeWhile Text.isHexDigit =
      digits.map Char.toUpper := by
    refine takeWhile_append (fun d member => (capitals d member).1) fun other same => ?_
    cases same
    exact isHexDigit_of_isLayout layout
  have unchanged : (digits.map Char.toUpper).map Char.toUpper = digits.map Char.toUpper :=
    (List.map_congr_left fun d member => (capitals d member).2).trans (List.map_id' _)
  have found : first '0' ('X' :: (digits.map Char.toUpper ++ c :: rest)) =
      (.number (String.ofList ('0' :: 'X' :: digits.map Char.toUpper)),
        (digits.map Char.toUpper).length + 1) := by
    rw [first_digit rfl, ofDigits]
    simp only [taken, unchanged]
  rw [cut_first rfl, found]
  simp only [List.drop_succ_cons, List.drop_left]

theorem cut_ofDigits (digit : Text.isDecimalDigit d = true) (others : List Char)
    (layout : Text.isLayout c = true) :
    cut 0 ((ofDigits d others).1.text.toList ++ c :: rest) =
      (ofDigits d others).1 :: cut 0 (c :: rest) := by
  have hex (digits : List Char) : ∀ d ∈ digits.takeWhile Text.isHexDigit, Text.isHexDigit d = true :=
    List.all_eq_true.mp List.all_takeWhile
  unfold ofDigits
  split
  · simp only [text, String.toList_ofList]
    exact cut_hex (hex _) layout
  · simp only [text, String.toList_ofList]
    exact cut_hex (hex _) layout
  · simp only [text, String.toList_ofList]
    exact cut_digits digit (List.all_eq_true.mp List.all_takeWhile) (apart_of_isLayout layout)

/-- A mark that stands alone is cut from its text, and so is what an equals sign makes of it. -/
theorem cut_followed {joined alone : Lexeme} (others : List Char) (layout : Text.isLayout c = true)
    (whole : cut 0 (joined.text.toList ++ c :: rest) = joined :: cut 0 (c :: rest))
    (part : c ≠ '=' → cut 0 (alone.text.toList ++ c :: rest) = alone :: cut 0 (c :: rest)) :
    cut 0 ((followed joined alone others).1.text.toList ++ c :: rest) =
      (followed joined alone others).1 :: cut 0 (c :: rest) := by
  unfold followed
  split
  · exact whole
  · refine part ?_
    rintro rfl
    cases layout

/-- A sign is cut from its own text if layout comes next. -/
theorem cut_mark (others : List Char) (noName : isNameStart d = false)
    (noDigit : Text.isDecimalDigit d = false) (visible : Text.isLayout d = false)
    (layout : Text.isLayout c = true) :
    cut 0 ((first d others).1.text.toList ++ c :: rest) = (first d others).1 :: cut 0 (c :: rest) := by
  unfold first
  simp only [noName, noDigit, Bool.false_eq_true, if_false]
  split
  case h_16 => exact cut_followed others layout rfl fun other => cut_sign rfl (followed_alone other)
  case h_17 => exact cut_followed others layout rfl fun other => cut_sign rfl (followed_alone other)
  case h_18 => exact cut_followed others layout rfl fun other => cut_sign rfl (followed_alone other)
  case h_19 => exact cut_followed others layout rfl fun other => cut_sign rfl (followed_alone other)
  case h_20 =>
    have stands : first d (c :: rest) = (.unknown d, 0) := by
      unfold first
      simp only [noName, noDigit, Bool.false_eq_true, if_false]
    simp only [text, Char.toString, String.toList_singleton, List.singleton_append]
    exact cut_sign visible stands
  all_goals rfl

/-- A lexeme is cut from its own text if layout comes next. -/
theorem cut_text_of_isScanned {lexeme : Lexeme} (scanned : lexeme.IsScanned)
    (layout : Text.isLayout c = true) :
    cut 0 (lexeme.text.toList ++ c :: rest) = lexeme :: cut 0 (c :: rest) := by
  obtain ⟨d, others, visible, rfl⟩ := scanned
  by_cases start : isNameStart d = true
  · rw [first_word start, text_ofWord, String.toList_ofList]
    exact cut_word start (List.all_eq_true.mp List.all_takeWhile) (apart_of_isLayout layout)
  · by_cases digit : Text.isDecimalDigit d = true
    · rw [first_digit digit]
      exact cut_ofDigits digit others layout
    · rw [Bool.not_eq_true] at start digit
      exact cut_mark others start digit visible layout

theorem cut_layout {layout : List Char} (blank : ∀ c ∈ layout, Text.isLayout c = true) :
    cut 0 (layout ++ rest) = cut 0 rest := by
  induction layout with
  | nil => rfl
  | cons c layout ih =>
      obtain ⟨head, others⟩ := List.forall_mem_cons.mp blank
      rw [List.cons_append, cut, if_pos head]
      exact ih others

/-- The text of lexemes in order, each with some layout after it. -/
def written (pieces : List (Lexeme × List Char)) : List Char :=
  pieces.flatMap fun (lexeme, layout) => lexeme.text.toList ++ layout

def Separates (layout : List Char) : Prop := layout ≠ [] ∧ ∀ c ∈ layout, Text.isLayout c = true

/-- What was written with layout between is cut into what was written. -/
theorem cut_written {pieces : List (Lexeme × List Char)}
    (scanned : ∀ piece ∈ pieces, piece.1.IsScanned) (spaced : ∀ piece ∈ pieces, Separates piece.2) :
    cut 0 (written pieces) = pieces.map (·.1) := by
  induction pieces with
  | nil => rfl
  | cons piece pieces ih =>
      obtain ⟨head, others⟩ := List.forall_mem_cons.mp scanned
      obtain ⟨⟨filled, blank⟩, otherSpaces⟩ := List.forall_mem_cons.mp spaced
      obtain ⟨lexeme, layout⟩ := piece
      obtain ⟨c, more, rfl⟩ := List.exists_cons_of_ne_nil filled
      have layoutFirst := blank c List.mem_cons_self
      rw [written, List.flatMap_cons, ← written, List.append_assoc, List.cons_append,
        cut_text_of_isScanned head layoutFirst, ← List.cons_append, cut_layout blank,
        ih others otherSpaces, List.map_cons]

end Scan

end Abacus
