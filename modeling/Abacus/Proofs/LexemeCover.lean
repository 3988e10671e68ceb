import Abacus.Proofs.LexemeText

set_option autoImplicit false

namespace Abacus

namespace Lexeme

/-- The sign that a character is by itself, whatever comes next. -/
def sign? : Char → Option Lexeme
  | '(' => some lparen
  | ')' => some rparen
  | '[' => some lbracket
  | ']' => some rbracket
  | ';' => some semicolon
  | ',' => some comma
  | '?' => some question
  | ':' => some colon
  | '+' => some (binary .add)
  | '-' => some (binary .sub)
  | '*' => some (binary .mul)
  | '/' => some (binary .div)
  | '%' => some (binary .rem)
  | _ => none

/-- The operator of a character that takes the next one with it. -/
def pair? : Char → Option LogicOp
  | '&' => some .and
  | '|' => some .or
  | _ => none

/-- The sign that a character is with an equals sign after it, and the one that it is alone. -/
def mark? : Char → Option (Lexeme × Lexeme)
  | '=' => some (binary .eq, assign)
  | '!' => some (binary .ne, bang)
  | '>' => some (binary .ge, binary .gt)
  | '<' => some (binary .le, binary .lt)
  | _ => none

/-- No character at the start of the text has the property: a run of such characters ends in front of the text. -/
def Ends (p : Char → Bool) (text : List Char) : Prop := ∀ c ∈ text.head?, p c = false

/-- The characters that a lexeme covers, in front of others. A word and a number are as long as they can be. -/
inductive Covers : Lexeme → (text after : List Char) → Prop
  | word {c : Char} {taken after : List Char} (start : isNameStart c = true)
      (more : ∀ d ∈ taken, isNameRest d = true) (ends : Ends isNameRest after) :
      Covers (ofWord (String.ofList (c :: taken))) (c :: taken) after
  | hex {x : Char} {digits after : List Char} (marked : x = 'x' ∨ x = 'X')
      (hexadecimal : ∀ d ∈ digits, Text.isHexDigit d = true) (ends : Ends Text.isHexDigit after) :
      Covers (number (String.ofList ('0' :: 'X' :: digits.map Char.toUpper))) ('0' :: x :: digits) after
  | decimal {digits after : List Char} (filled : digits ≠ [])
      (decimals : ∀ d ∈ digits, Text.isDecimalDigit d = true) (ends : Ends Text.isDecimalDigit after)
      (unmarked : digits = ['0'] → after.head? ≠ some 'x' ∧ after.head? ≠ some 'X') :
      Covers (number (String.ofList digits)) digits after
  | pair {c : Char} {op : LogicOp} (d : Char) {after : List Char} (doubled : pair? c = some op) :
      Covers (logic op) [c, d] after
  | lastPair {c : Char} {op : LogicOp} (doubled : pair? c = some op) : Covers (logic op) [c] []
  | joined {c : Char} {whole part : Lexeme} {after : List Char} (marks : mark? c = some (whole, part)) :
      Covers whole [c, '='] after
  | alone {c : Char} {whole part : Lexeme} {after : List Char} (marks : mark? c = some (whole, part))
      (unequal : after.head? ≠ some '=') : Covers part [c] after
  | sign {c : Char} {lexeme : Lexeme} {after : List Char} (signs : sign? c = some lexeme) :
      Covers lexeme [c] after
  | unknown {c : Char} {after : List Char} (visible : Text.isLayout c = false)
      (noWord : isNameStart c = false) (noDigit : Text.isDecimalDigit c = false) (noSign : sign? c = none)
      (noPair : pair? c = none) (noMark : mark? c = none) : Covers (unknown c) [c] after

/-- How the lexeme that covers a text is written: as the text, but a hexadecimal number in capitals, and an ampersand
and a bar twice. -/
def spelling : List Char → String
  | '0' :: 'x' :: digits => String.ofList ('0' :: 'X' :: digits.map Char.toUpper)
  | '0' :: 'X' :: digits => String.ofList ('0' :: 'X' :: digits.map Char.toUpper)
  | '&' :: _ => "&&"
  | '|' :: _ => "||"
  | text => String.ofList text

theorem ends_dropWhile (p : Char → Bool) (text : List Char) : Ends p (text.dropWhile p) := by
  intro c first
  have fails := List.head?_dropWhile_not p text
  rw [first] at fails
  exact fails

theorem take_length_takeWhile (p : Char → Bool) (text : List Char) :
    text.take (text.takeWhile p).length = text.takeWhile p :=
  (List.prefix_iff_eq_take.mp (List.takeWhile_prefix p)).symm

theorem drop_length_takeWhile (p : Char → Bool) (text : List Char) :
    text.drop (text.takeWhile p).length = text.dropWhile p := by
  calc text.drop (text.takeWhile p).length
      = (text.takeWhile p ++ text.dropWhile p).drop (text.takeWhile p).length := by
        rw [List.takeWhile_append_dropWhile]
    _ = text.dropWhile p := List.drop_left

variable {c : Char} (rest : List Char)

theorem first_sign {lexeme : Lexeme} (signs : sign? c = some lexeme) :
    Text.isLayout c = false ∧ first c rest = (lexeme, 0) := by
  unfold sign? at signs
  split at signs <;> cases signs <;> exact ⟨rfl, rfl⟩

theorem first_pair {op : LogicOp} (doubled : pair? c = some op) :
    Text.isLayout c = false ∧ first c rest = (logic op, 1) := by
  unfold pair? at doubled
  split at doubled <;> cases doubled <;> exact ⟨rfl, rfl⟩

theorem first_mark {whole part : Lexeme} (marks : mark? c = some (whole, part)) :
    Text.isLayout c = false ∧ first c rest = followed whole part rest := by
  unfold mark? at marks
  split at marks <;> cases marks <;> exact ⟨rfl, rfl⟩

theorem first_unknown (noWord : isNameStart c = false) (noDigit : Text.isDecimalDigit c = false)
    (noSign : sign? c = none) (noPair : pair? c = none) (noMark : mark? c = none) :
    first c rest = (unknown c, 0) := by
  unfold first
  rw [if_neg (Bool.eq_false_iff.mp noWord), if_neg (Bool.eq_false_iff.mp noDigit)]
  split
  case h_14 | h_15 => cases noPair
  case h_16 | h_17 | h_18 | h_19 => cases noMark
  case h_20 => rfl
  all_goals cases noSign

/-- The lexeme that starts with a character covers it and the characters that the lexeme holds after it. -/
def CoversStart (c : Char) (rest : List Char) (found : Lexeme × Nat) : Prop :=
  found.1.Covers (c :: rest.take found.2) (rest.drop found.2)

theorem covers_ofDigits (digit : Text.isDecimalDigit c = true) : CoversStart c rest (ofDigits c rest) := by
  have hex {x : Char} (marked : x = 'x' ∨ x = 'X') (digits : List Char) :
      CoversStart '0' (x :: digits)
        (number (String.ofList ('0' :: 'X' :: (digits.takeWhile Text.isHexDigit).map Char.toUpper)),
          (digits.takeWhile Text.isHexDigit).length + 1) := by
    simp only [CoversStart, List.take_succ_cons, List.drop_succ_cons, take_length_takeWhile,
      drop_length_takeWhile]
    exact .hex marked (List.all_eq_true.mp List.all_takeWhile) (ends_dropWhile _ _)
  unfold ofDigits
  split
  · exact hex (Or.inl rfl) _
  · exact hex (Or.inr rfl) _
  · rename_i noSmall noCapital
    simp only [CoversStart, take_length_takeWhile, drop_length_takeWhile]
    refine .decimal (List.cons_ne_nil _ _) ?_ (ends_dropWhile _ _) fun single => ?_
    · exact List.forall_mem_cons.mpr ⟨digit, List.all_eq_true.mp List.all_takeWhile⟩
    · obtain ⟨zero, empty⟩ := List.cons.inj single
      have whole := drop_length_takeWhile Text.isDecimalDigit rest
      rw [empty, List.length_nil, List.drop_zero] at whole
      rw [← whole]
      cases rest with
      | nil => exact ⟨nofun, nofun⟩
      | cons d digits =>
          refine ⟨fun marked => ?_, fun marked => ?_⟩
          · exact noSmall digits zero (congrArg (· :: digits) (Option.some.inj marked))
          · exact noCapital digits zero (congrArg (· :: digits) (Option.some.inj marked))

theorem covers_followed {whole part : Lexeme} (marks : mark? c = some (whole, part)) :
    CoversStart c rest (followed whole part rest) := by
  unfold followed
  split
  · exact .joined marks
  · rename_i unequal
    refine .alone marks fun equal => ?_
    obtain ⟨more, rfl⟩ := List.head?_eq_some_iff.mp equal
    exact unequal more rfl

theorem covers_pair {op : LogicOp} (doubled : pair? c = some op) : CoversStart c rest (logic op, 1) := by
  cases rest with
  | nil => exact .lastPair doubled
  | cons d rest => exact .pair d doubled

/-- A scan cuts lexemes that cover what they hold. -/
theorem covers_first (visible : Text.isLayout c = false) : CoversStart c rest (first c rest) := by
  by_cases start : isNameStart c = true
  · rw [first_word start, CoversStart, take_length_takeWhile, drop_length_takeWhile]
    exact .word start (List.all_eq_true.mp List.all_takeWhile) (ends_dropWhile _ _)
  · by_cases digit : Text.isDecimalDigit c = true
    · rw [first_digit digit]
      exact covers_ofDigits rest digit
    · rw [Bool.not_eq_true] at start digit
      cases signs : sign? c with
      | some lexeme => exact (first_sign rest signs).2 ▸ .sign signs
      | none =>
          cases doubled : pair? c with
          | some op => exact (first_pair rest doubled).2 ▸ covers_pair rest doubled
          | none =>
              cases marks : mark? c with
              | some both => exact (first_mark rest marks).2 ▸ covers_followed rest marks
              | none =>
                  rw [first_unknown rest start digit signs doubled marks]
                  exact .unknown visible start digit signs doubled marks

/-- Only numbers in base sixteen, ampersands and bars are not written as they are in the text. -/
theorem spelling_eq_ofList {taken : List Char} (noPair : pair? c = none)
    (noHex : c = '0' → ∀ d ∈ taken.head?, Text.isDecimalDigit d = true) :
    spelling (c :: taken) = String.ofList (c :: taken) := by
  unfold spelling
  split
  · rename_i marked
    obtain ⟨rfl, rfl⟩ := List.cons.inj marked
    cases noHex rfl 'x' rfl
  · rename_i marked
    obtain ⟨rfl, rfl⟩ := List.cons.inj marked
    cases noHex rfl 'X' rfl
  · rename_i doubled
    obtain ⟨rfl, rfl⟩ := List.cons.inj doubled
    cases noPair
  · rename_i doubled
    obtain ⟨rfl, rfl⟩ := List.cons.inj doubled
    cases noPair
  · rfl

theorem pair?_of_isNameRest (more : isNameRest c = true) : pair? c = none := by
  unfold pair?
  split
  · cases more
  · cases more
  · rfl

/-- A lexeme is written as the text that it covers is spelled. -/
theorem Covers.text_eq_spelling {lexeme : Lexeme} {text after : List Char} (covers : lexeme.Covers text after) :
    lexeme.text = spelling text := by
  cases covers with
  | word start more ends =>
      have letter := pair?_of_isNameRest (by rw [isNameRest, start, Bool.true_or])
      rw [text_ofWord, spelling_eq_ofList letter]
      rintro rfl
      cases start
  | hex marked hexadecimal ends => rcases marked with rfl | rfl <;> rfl
  | decimal filled decimals ends unmarked =>
      obtain ⟨c, others, rfl⟩ := List.exists_cons_of_ne_nil filled
      obtain ⟨digit, digits⟩ := List.forall_mem_cons.mp decimals
      rw [spelling_eq_ofList (pair?_of_isNameRest (isNameRest_of_digit digit))]
      · rfl
      · exact fun _ d first => digits d (List.mem_of_head? first)
  | pair d doubled =>
      unfold pair? at doubled
      split at doubled <;> cases doubled <;> rfl
  | lastPair doubled =>
      unfold pair? at doubled
      split at doubled <;> cases doubled <;> rfl
  | joined marks =>
      unfold mark? at marks
      split at marks <;> cases marks <;> rfl
  | alone marks unequal =>
      unfold mark? at marks
      split at marks <;> cases marks <;> rfl
  | sign signs =>
      unfold sign? at signs
      split at signs <;> cases signs <;> rfl
  | unknown visible noWord noDigit noSign noPair noMark =>
      rw [spelling_eq_ofList noPair]
      · rfl
      · rintro rfl
        cases noDigit

theorem ofDigits_of_covers {taken after : List Char} (digits : ∀ d ∈ taken, Text.isDecimalDigit d = true)
    (ends : Ends Text.isDecimalDigit after)
    (unmarked : c :: taken = ['0'] → after.head? ≠ some 'x' ∧ after.head? ≠ some 'X') :
    ofDigits c (taken ++ after) = (number (String.ofList (c :: taken)), taken.length) := by
  have plain {x : Char} {more : List Char} (letter : Text.isDecimalDigit x = false)
      (marked : taken ++ after = x :: more) : taken = [] ∧ after.head? = some x := by
    cases taken with
    | nil => exact ⟨rfl, by rw [← List.nil_append after, marked]; rfl⟩
    | cons d taken =>
        obtain ⟨rfl, -⟩ := List.cons.inj marked
        rw [digits d List.mem_cons_self] at letter
        cases letter
  unfold ofDigits
  split
  · rename_i marked
    obtain ⟨rfl, found⟩ := plain rfl marked
    exact absurd found (unmarked rfl).1
  · rename_i marked
    obtain ⟨rfl, found⟩ := plain rfl marked
    exact absurd found (unmarked rfl).2
  · rw [takeWhile_append digits ends]

/-- A lexeme covers a text exactly if a scan cuts the lexeme there and goes on behind the text. -/
theorem covers_iff {lexeme : Lexeme} {text after : List Char} :
    lexeme.Covers text after ↔ ∃ c rest, text ++ after = c :: rest ∧ Text.isLayout c = false ∧
      (first c rest).1 = lexeme ∧ rest.drop (first c rest).2 = after := by
  constructor
  · intro covers
    cases covers with
    | @word c taken _ start more ends =>
        refine ⟨c, taken ++ after, rfl, isLayout_of_isNameRest (by rw [isNameRest, start, Bool.true_or]), ?_⟩
        rw [first_word start, takeWhile_append more ends]
        exact ⟨rfl, List.drop_left⟩
    | @hex x digits _ marked hexadecimal ends =>
        have found : ofDigits '0' (x :: (digits ++ after)) =
            (number (String.ofList ('0' :: 'X' :: digits.map Char.toUpper)), digits.length + 1) := by
          rcases marked with rfl | rfl <;> simp only [ofDigits, takeWhile_append hexadecimal ends]
        refine ⟨'0', x :: (digits ++ after), rfl, rfl, ?_⟩
        rw [first_digit rfl, found]
        exact ⟨rfl, List.drop_left⟩
    | decimal filled decimals ends unmarked =>
        obtain ⟨c, taken, rfl⟩ := List.exists_cons_of_ne_nil filled
        obtain ⟨digit, digits⟩ := List.forall_mem_cons.mp decimals
        refine ⟨c, taken ++ after, rfl, isLayout_of_isNameRest (isNameRest_of_digit digit), ?_⟩
        rw [first_digit digit, ofDigits_of_covers digits ends unmarked]
        exact ⟨rfl, List.drop_left⟩
    | @pair c _ d _ doubled =>
        obtain ⟨visible, found⟩ := first_pair (d :: after) doubled
        refine ⟨c, d :: after, rfl, visible, ?_⟩
        rw [found]
        exact ⟨rfl, rfl⟩
    | @lastPair c _ doubled =>
        obtain ⟨visible, found⟩ := first_pair [] doubled
        refine ⟨c, [], rfl, visible, ?_⟩
        rw [found]
        exact ⟨rfl, rfl⟩
    | @joined c _ _ _ marks =>
        obtain ⟨visible, found⟩ := first_mark ('=' :: after) marks
        refine ⟨c, '=' :: after, rfl, visible, ?_⟩
        rw [found]
        exact ⟨rfl, rfl⟩
    | @alone c whole _ _ marks unequal =>
        obtain ⟨visible, found⟩ := first_mark after marks
        have single : followed whole lexeme after = (lexeme, 0) := by
          cases after with
          | nil => rfl
          | cons d after => exact followed_alone fun same => unequal (congrArg some same)
        refine ⟨c, after, rfl, visible, ?_⟩
        rw [found, single]
        exact ⟨rfl, rfl⟩
    | @sign c _ _ signs =>
        obtain ⟨visible, found⟩ := first_sign after signs
        refine ⟨c, after, rfl, visible, ?_⟩
        rw [found]
        exact ⟨rfl, rfl⟩
    | @unknown c _ visible noWord noDigit noSign noPair noMark =>
        refine ⟨c, after, rfl, visible, ?_⟩
        rw [first_unknown after noWord noDigit noSign noPair noMark]
        exact ⟨rfl, rfl⟩
  · rintro ⟨c, rest, parts, visible, rfl, rfl⟩
    have whole : text ++ rest.drop (first c rest).2 =
        (c :: rest.take (first c rest).2) ++ rest.drop (first c rest).2 := by
      rw [parts, List.cons_append, List.take_append_drop]
    rw [List.append_cancel_right whole]
    exact covers_first rest visible

end Lexeme

end Abacus
