import Abacus.Lexeme

set_option autoImplicit false

namespace Abacus.Literal

/-- The value of a row of digits behind digits that are worth `value` already. -/
def places (base : Nat) (digit? : Char → Option Nat) (value : Nat) (digits : List Char) : Option Nat :=
  (digits.mapM digit?).map (List.foldl (fun value digit => value * base + digit) value)

theorem positional_eq_places (base : Nat) (digit? : Char → Option Nat) (digits : List Char) :
    positional base digit? digits = places base digit? 0 digits := rfl

@[simp] theorem places_nil (base : Nat) (digit? : Char → Option Nat) (value : Nat) :
    places base digit? value [] = some value := rfl

theorem places_cons (base : Nat) (digit? : Char → Option Nat) (value : Nat) (c : Char)
    (rest : List Char) :
    places base digit? value (c :: rest) =
      (digit? c).bind fun digit => places base digit? (value * base + digit) rest := by
  simp only [places, List.mapM_cons]
  cases digit? c with
  | none => rfl
  | some digit =>
      cases rest.mapM digit? with
      | none => rfl
      | some digits => rfl

theorem places_append (base : Nat) (digit? : Char → Option Nat) (value : Nat)
    (first second : List Char) :
    places base digit? value (first ++ second) =
      (places base digit? value first).bind fun value => places base digit? value second := by
  induction first generalizing value with
  | nil => rfl
  | cons c first ih =>
      simp only [List.cons_append, places_cons, ih]
      cases digit? c <;> rfl

/-- The places of a digit only add to a value. -/
theorem le_of_places {base : Nat} (positive : 0 < base) {digit? : Char → Option Nat} {value n : Nat}
    {digits : List Char} (worth : places base digit? value digits = some n) : value ≤ n := by
  induction digits generalizing value with
  | nil =>
      cases worth
      exact Nat.le_refl _
  | cons c rest ih =>
      rw [places_cons] at worth
      obtain ⟨digit, -, worth⟩ := Option.bind_eq_some_iff.mp worth
      have grown := ih worth
      have kept : value * 1 ≤ value * base := Nat.mul_le_mul_left value positive
      omega

/-- Reading under a bound succeeds exactly with a value of the places that keeps to the bound. -/
theorem magnitude_eq_ok_iff {base bound : Nat} (positive : 0 < base) (digit? : Char → Option Nat)
    {value n : Nat} (small : value ≤ bound) (digits : List Char) :
    magnitude base bound digit? value digits = .ok n ↔
      places base digit? value digits = some n ∧ n ≤ bound := by
  induction digits generalizing value with
  | nil =>
      simp only [magnitude, places_nil, Except.ok.injEq, Option.some.injEq]
      omega
  | cons c rest ih =>
      simp only [magnitude, places_cons]
      cases digit? c with
      | none => simp only [reduceCtorEq, Option.bind_none, false_and]
      | some digit =>
          simp only [Option.bind_some]
          by_cases room : value * base + digit ≤ bound
          · rw [if_pos room, ih room]
          · rw [if_neg room]
            constructor
            · intro impossible
              cases impossible
            · rintro ⟨worth, fits⟩
              have grown := le_of_places positive worth
              omega

/-- The text of a number as lexemes have it: the hexadecimal mark and digits, or decimal digits, at least one. -/
def IsNormal (text : String) : Prop :=
  (∃ digits, text.toList = '0' :: 'X' :: digits) ∨
    text.toList ≠ [] ∧ ∀ c ∈ text.toList, Text.isDecimalDigit c = true

theorem isDecimalDigit_of_places {base value n : Nat} {digits : List Char}
    (worth : places base Text.decimalDigit? value digits = some n) :
    ∀ c ∈ digits, Text.isDecimalDigit c = true := by
  induction digits generalizing value with
  | nil => simp
  | cons c rest ih =>
      rw [places_cons] at worth
      obtain ⟨digit, found, worth⟩ := Option.bind_eq_some_iff.mp worth
      intro other member
      rcases List.mem_cons.mp member with rfl | member
      · simp only [Text.isDecimalDigit, found, Option.isSome_some]
      · exact ih worth other member

theorem isNormal_of_denotes? {text : String} {n : Nat} (denotes : denotes? text = some n) :
    IsNormal text := by
  unfold denotes? at denotes
  split at denotes
  · cases denotes
  · rename_i digits written
    exact Or.inl ⟨digits, written⟩
  · rename_i written _
    exact Or.inr ⟨written, isDecimalDigit_of_places denotes⟩

theorem map_ofNat_eq_ok_iff {result : Except LiteralError Nat} {value : Int64} :
    result.map Int64.ofNat = .ok value ↔ ∃ n, result = .ok n ∧ value = Int64.ofNat n := by
  cases result with
  | error error => simp only [Except.map, reduceCtorEq, false_and, exists_false]
  | ok n =>
      simp only [Except.map, Except.ok.injEq, exists_eq_left']
      exact eq_comm

theorem readHex_eq_ok_iff {digits : List Char} {value : Int64} :
    readHex digits = .ok value ↔
      ∃ n, positional 16 Text.hexDigit? digits = some n ∧ n ≤ maxValue ∧ value = Int64.ofNat n := by
  simp only [readHex, map_ofNat_eq_ok_iff, positional_eq_places, and_assoc,
    magnitude_eq_ok_iff (show 0 < 16 by decide) _ (Nat.zero_le maxValue)]

theorem readDecimal_eq_ok_iff {digits : List Char} (some_digit : digits ≠ []) {value : Int64} :
    readDecimal false digits = .ok value ↔
      ∃ n, positional 10 Text.decimalDigit? digits = some n ∧ n ≤ maxValue ∧
        value = Int64.ofNat n := by
  cases digits with
  | nil => exact absurd rfl some_digit
  | cons c rest =>
      simp only [readDecimal, Bool.false_eq_true, if_false, map_ofNat_eq_ok_iff,
        positional_eq_places, and_assoc,
        magnitude_eq_ok_iff (show 0 < 10 by decide) _ (Nat.zero_le maxValue)]

/-- A text of decimal digits is read without looking for a sign or a mark. -/
theorem read_of_digits {text : String} (digits : ∀ c ∈ text.toList, Text.isDecimalDigit c = true) :
    read text = readDecimal false text.toList := by
  have absent : ∀ c, Text.isDecimalDigit c = false → c ∉ text.toList := by
    intro c no member
    rw [digits c member] at no
    cases no
  unfold read
  split
  · rename_i rest written
    exact absurd (by rw [written]; simp) (absent 'X' (by decide))
  · rename_i rest written
    exact absurd (by rw [written]; simp) (absent 'x' (by decide))
  · rename_i rest written
    exact absurd (by rw [written]; simp) (absent '+' (by decide))
  · rename_i rest written
    exact absurd (by rw [written]; simp) (absent '-' (by decide))
  · rfl

theorem denotes?_of_digits {text : String} (written : text.toList ≠ [])
    (digits : ∀ c ∈ text.toList, Text.isDecimalDigit c = true) :
    denotes? text = positional 10 Text.decimalDigit? text.toList := by
  unfold denotes?
  split
  · rename_i blank
    exact absurd blank written
  · rename_i rest marked
    have mark := digits 'X' (by rw [marked]; simp)
    cases mark
  · rfl

/-- The text of a number lexeme is read as the number that it denotes, if that fits a value. -/
theorem read_eq_ok_iff {text : String} (normal : IsNormal text) {value : Int64} :
    read text = .ok value ↔
      ∃ n, denotes? text = some n ∧ n ≤ maxValue ∧ value = Int64.ofNat n := by
  rcases normal with ⟨digits, written⟩ | ⟨written, digits⟩
  · have reading : read text = readHex digits := by simp only [read, written]
    have meaning : denotes? text = positional 16 Text.hexDigit? digits := by
      simp only [denotes?, written]
    rw [reading, meaning]
    exact readHex_eq_ok_iff
  · rw [read_of_digits digits, denotes?_of_digits written digits]
    exact readDecimal_eq_ok_iff written

theorem decimalDigit?_digitChar {digit : Nat} (small : digit < 10) :
    Text.decimalDigit? digit.digitChar = some digit := by
  have all : ∀ digit < 10, Text.decimalDigit? (Nat.digitChar digit) = some digit := by decide
  exact all digit small

theorem places_toDigits (n : Nat) : places 10 Text.decimalDigit? 0 (Nat.toDigits 10 n) = some n := by
  induction n using Nat.base_induction 10 (by decide) with
  | single digit small =>
      rw [Nat.toDigits_of_lt_base small, places_cons, decimalDigit?_digitChar small]
      simp
  | digit n digit small positive ih =>
      rw [← Nat.toDigits_append_toDigits (by decide) positive small, places_append, ih,
        Nat.toDigits_of_lt_base small, Option.bind_some, places_cons,
        decimalDigit?_digitChar small]
      simp only [Option.bind_some, places_nil, Nat.mul_comm]

/-- The decimal text of a number denotes it. -/
theorem denotes?_repr (n : Nat) : denotes? n.repr = some n := by
  have written : n.repr.toList = Nat.toDigits 10 n := Nat.toList_repr
  have worth := places_toDigits n
  rw [← written] at worth
  rw [denotes?_of_digits _ (isDecimalDigit_of_places worth)]
  · exact worth
  · rw [written]
    exact Nat.toDigits_ne_nil

end Abacus.Literal
