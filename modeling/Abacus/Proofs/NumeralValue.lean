import Abacus.Proofs.LexemeCover
import Mathlib.Data.Nat.Digits.Defs

set_option autoImplicit false

namespace Abacus

def Text.digits : List Char :=
  ['0', '1', '2', '3', '4', '5', '6', '7', '8', '9', 'A', 'B', 'C', 'D', 'E', 'F']

/-- The value of a digit: its index among the digits, with a small letter taken for its capital. -/
def Text.rank (c : Char) : Nat := Text.digits.idxOf c.toUpper

namespace Literal

/-- What a row of digits is worth: the sum of their values, each times the power of the base that belongs to its place
from the right. -/
def worth (base : Nat) (digits : List Char) : Nat :=
  Nat.ofDigits base (digits.map Text.rank).reverse

/-- The characters are a numeral with the given normal text, which is worth the number: at least one decimal digit, or
`0x` or `0X` and hexadecimal digits, of which there may be none. -/
inductive IsNumeral : (written : List Char) → (text : String) → (n : Nat) → Prop
  | decimal {digits : List Char} (filled : digits ≠ [])
      (decimals : ∀ c ∈ digits, Text.isDecimalDigit c = true) :
      IsNumeral digits (String.ofList digits) (worth 10 digits)
  | hexadecimal {mark : Char} {digits : List Char} (marked : mark = 'x' ∨ mark = 'X')
      (hexadecimals : ∀ c ∈ digits, Text.isHexDigit c = true) :
      IsNumeral ('0' :: mark :: digits) (String.ofList ('0' :: 'X' :: digits.map Char.toUpper))
        (worth 16 digits)

/-- What any characters behind a hexadecimal mark come to, by the first fault from the left: a character that is no
digit, or a digit with which the digits so far are worth too much. -/
inductive HexDenotes (digits : List Char) : Except LiteralError Int64 → Prop
  | value {value : Int64} (hexadecimals : ∀ c ∈ digits, Text.isHexDigit c = true)
      (small : worth 16 digits < 2 ^ 63) (same : value.toInt = worth 16 digits) : HexDenotes digits (.ok value)
  | invalidDigit {before after : List Char} {c : Char} (parts : digits = before ++ c :: after)
      (hexadecimals : ∀ c ∈ before, Text.isHexDigit c = true) (small : worth 16 before < 2 ^ 63)
      (noDigit : Text.isHexDigit c = false) : HexDenotes digits (.error .invalidDigit)
  | overflow {before after : List Char} (parts : digits = before ++ after)
      (hexadecimals : ∀ c ∈ before, Text.isHexDigit c = true) (large : 2 ^ 63 ≤ worth 16 before) :
      HexDenotes digits (.error .overflow)

/-- The source text is a statement that consists of the given characters, with the layout `before` in front of them and
layout around its terminator. A text of one line may lack the terminator. -/
inductive StandsAlone (before written : List Char) : (source : List Char) → Prop
  | terminated {between after : List Char} (blank : ∀ c ∈ before ++ between ++ after, Text.isLayout c = true) :
      StandsAlone before written (before ++ written ++ between ++ ';' :: after)
  | unterminated {between : List Char} (blank : ∀ c ∈ before ++ between, Text.isLayout c = true)
      (oneLine : '\n' ∉ before ++ between) : StandsAlone before written (before ++ written ++ between)

theorem worth_cons (base : Nat) (c : Char) (rest : List Char) :
    worth base (c :: rest) = Text.rank c * base ^ rest.length + worth base rest := by
  rw [worth, worth, List.map_cons, List.reverse_cons, Nat.ofDigits_append, Nat.ofDigits_singleton,
    List.length_reverse, List.length_map, Nat.mul_comm, Nat.add_comm]

end Literal

namespace Text

variable {c : Char}

theorem hexDigit?_eq_rank (digit : isHexDigit c = true) : hexDigit? c = some (rank c) :=
  of_isHexDigit digit (by decide +kernel)

theorem decimalDigit?_eq_rank (digit : isDecimalDigit c = true) : decimalDigit? c = some (rank c) := by
  obtain ⟨value, found⟩ := Option.isSome_iff_exists.mp digit
  have same := hexDigit?_of_decimalDigit? found
  have hexadecimal : isHexDigit c = true := by rw [isHexDigit, same, Option.isSome_some]
  rw [hexDigit?_eq_rank hexadecimal] at same
  rw [found, same]

theorem rank_toUpper (digit : isHexDigit c = true) : rank c.toUpper = rank c := by
  rw [rank, (toUpper_of_isHexDigit digit).2, rank]

end Text

namespace Literal

variable {base bound value : Nat} {digit? : Char → Option Nat} {digits : List Char}

/-- Reading goes on behind a first part with what that came to, if it came to a value. -/
theorem magnitude_append (base bound : Nat) (digit? : Char → Option Nat) (value : Nat)
    (first second : List Char) :
    magnitude base bound digit? value (first ++ second) =
      match magnitude base bound digit? value first with
      | .ok between => magnitude base bound digit? between second
      | .error fault => .error fault := by
  induction first generalizing value with
  | nil => rfl
  | cons c first ih =>
      simp only [List.cons_append, magnitude]
      cases digit? c with
      | none => rfl
      | some digit =>
          dsimp only
          by_cases room : value * base + digit ≤ bound
          · rw [if_pos room, if_pos room, ih]
          · rw [if_neg room, if_neg room]

/-- Digits behind a value are read as what both are worth together, or that is above the bound. -/
theorem magnitude_of_digits (positive : 0 < base) (small : value ≤ bound)
    (known : ∀ c ∈ digits, digit? c = some (Text.rank c)) :
    magnitude base bound digit? value digits =
      if value * base ^ digits.length + worth base digits ≤ bound then
        .ok (value * base ^ digits.length + worth base digits)
      else .error .overflow := by
  induction digits generalizing value with
  | nil =>
      have whole : value * base ^ ([] : List Char).length + worth base [] = value := by
        rw [List.length_nil, Nat.pow_zero, Nat.mul_one]
        rfl
      rw [whole, if_pos small]
      rfl
  | cons c rest ih =>
      obtain ⟨head, tail⟩ := List.forall_mem_cons.mp known
      have whole : value * base ^ (c :: rest).length + worth base (c :: rest) =
          (value * base + Text.rank c) * base ^ rest.length + worth base rest := by
        rw [worth_cons, List.length_cons, Nat.pow_succ]
        ring
      rw [whole]
      simp only [magnitude, head]
      by_cases room : value * base + Text.rank c ≤ bound
      · rw [if_pos room, ih room tail]
      · have grown : (value * base + Text.rank c) * 1 ≤
            (value * base + Text.rank c) * base ^ rest.length :=
          Nat.mul_le_mul_left _ (Nat.pow_pos positive)
        rw [if_neg room, if_neg (by omega)]

theorem magnitude_zero_of_digits (positive : 0 < base)
    (known : ∀ c ∈ digits, digit? c = some (Text.rank c)) :
    magnitude base bound digit? 0 digits =
      if worth base digits ≤ bound then .ok (worth base digits) else .error .overflow := by
  have found := magnitude_of_digits positive (Nat.zero_le bound) known
  rwa [Nat.zero_mul, Nat.zero_add] at found

theorem le_maxValue_iff {n : Nat} : n ≤ maxValue ↔ n < 2 ^ 63 := by
  unfold maxValue
  omega

theorem eq_ofNat_iff {value : Int64} {n : Nat} (small : n < 2 ^ 63) :
    value = Int64.ofNat n ↔ value.toInt = n := by
  rw [← Int64.toInt_ofNat_of_lt small, Int64.toInt_inj]

theorem magnitude_hex_of_digits (hexadecimals : ∀ c ∈ digits, Text.isHexDigit c = true) :
    magnitude 16 maxValue Text.hexDigit? 0 digits =
      if worth 16 digits < 2 ^ 63 then .ok (worth 16 digits) else .error .overflow := by
  rw [magnitude_zero_of_digits (by decide) fun c member => Text.hexDigit?_eq_rank (hexadecimals c member)]
  simp only [le_maxValue_iff]

theorem readHex_of_hexDenotes {result : Except LiteralError Int64} (denotes : HexDenotes digits result) :
    readHex digits = result := by
  unfold readHex
  cases denotes with
  | @value v hexadecimals small same =>
      rw [magnitude_hex_of_digits hexadecimals, if_pos small, (eq_ofNat_iff small).mpr same]
      rfl
  | @invalidDigit before after c parts hexadecimals small noDigit =>
      have absent : Text.hexDigit? c = none := by
        rw [← Option.not_isSome_iff_eq_none, ← Text.isHexDigit, noDigit]
        decide
      rw [parts, magnitude_append, magnitude_hex_of_digits hexadecimals, if_pos small]
      simp only [magnitude, absent]
      rfl
  | overflow parts hexadecimals large =>
      rw [parts, magnitude_append, magnitude_hex_of_digits hexadecimals, if_neg (Nat.not_lt.mpr large)]
      rfl

/-- Something comes first: a fault of one kind or the other, or the end. -/
theorem exists_hexDenotes (digits : List Char) : ∃ result, HexDenotes digits result := by
  have hexadecimals : ∀ c ∈ digits.takeWhile Text.isHexDigit, Text.isHexDigit c = true :=
    List.all_eq_true.mp List.all_takeWhile
  have parts : digits = digits.takeWhile Text.isHexDigit ++ digits.dropWhile Text.isHexDigit :=
    List.takeWhile_append_dropWhile.symm
  by_cases small : worth 16 (digits.takeWhile Text.isHexDigit) < 2 ^ 63
  · cases left : digits.dropWhile Text.isHexDigit with
    | nil =>
        rw [left, List.append_nil] at parts
        rw [← parts] at hexadecimals small
        exact ⟨_, .value hexadecimals small (Int64.toInt_ofNat_of_lt small)⟩
    | cons c after =>
        have noDigit := Lexeme.ends_dropWhile Text.isHexDigit digits c (by rw [left]; rfl)
        rw [left] at parts
        exact ⟨_, .invalidDigit parts hexadecimals small noDigit⟩
  · exact ⟨_, .overflow parts hexadecimals (Nat.not_lt.mp small)⟩

/-- Reading what stands behind a hexadecimal mark stops at the first fault from the left. -/
theorem readHex_eq_iff {result : Except LiteralError Int64} :
    readHex digits = result ↔ HexDenotes digits result := by
  constructor
  · rintro rfl
    obtain ⟨result, denotes⟩ := exists_hexDenotes digits
    rwa [readHex_of_hexDenotes denotes]
  · exact readHex_of_hexDenotes

theorem read_hex {mark : Char} (marked : mark = 'x' ∨ mark = 'X') (digits : List Char) :
    read (String.ofList ('0' :: mark :: digits)) = readHex digits := by
  rcases marked with rfl | rfl <;> simp only [read, String.toList_ofList]

theorem worth_toUpper (base : Nat) (hexadecimals : ∀ c ∈ digits, Text.isHexDigit c = true) :
    worth base (digits.map Char.toUpper) = worth base digits := by
  have same : (digits.map Char.toUpper).map Text.rank = digits.map Text.rank := by
    rw [List.map_map]
    exact List.map_congr_left fun c member => Text.rank_toUpper (hexadecimals c member)
  rw [worth, same, worth]

theorem magnitude_map_ofNat (n : Nat) :
    (if n < 2 ^ 63 then Except.ok n else .error .overflow : Except LiteralError Nat).map Int64.ofNat =
      if n < 2 ^ 63 then .ok (Int64.ofNat n) else .error .overflow := by
  by_cases small : n < 2 ^ 63
  · rw [if_pos small, if_pos small]
    rfl
  · rw [if_neg small, if_neg small]
    rfl

/-- The normal text of a numeral is read as what the numeral is worth, or that is too much for a value. -/
theorem read_of_isNumeral {written : List Char} {text : String} {n : Nat} (numeral : IsNumeral written text n) :
    read text = if n < 2 ^ 63 then .ok (Int64.ofNat n) else .error .overflow := by
  cases numeral with
  | decimal filled decimals =>
      obtain ⟨c, rest, rfl⟩ := List.exists_cons_of_ne_nil filled
      have bounded : magnitude 10 maxValue Text.decimalDigit? 0 (c :: rest) = _ :=
        magnitude_zero_of_digits (by decide) fun c member => Text.decimalDigit?_eq_rank (decimals c member)
      rw [read_of_digits (by rwa [String.toList_ofList]), String.toList_ofList]
      simp only [readDecimal, Bool.false_eq_true, if_false, bounded, le_maxValue_iff, magnitude_map_ofNat]
  | hexadecimal marked hexadecimals =>
      have capitals : ∀ c ∈ List.map Char.toUpper _, Text.isHexDigit c = true :=
        List.forall_mem_map.mpr fun c member => (Text.toUpper_of_isHexDigit (hexadecimals c member)).1
      rw [read_hex (Or.inr rfl), readHex, magnitude_hex_of_digits capitals, worth_toUpper 16 hexadecimals,
        magnitude_map_ofNat]

end Literal

end Abacus
