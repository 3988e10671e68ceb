set_option autoImplicit false

namespace Abacus.Text

/-- A character with the property White_Space. -/
def isBlank (c : Char) : Bool :=
  let n := c.toNat
  (0x09 ≤ n && n ≤ 0x0D) || n == 0x20 || n == 0x85 || n == 0xA0 || n == 0x1680 ||
    (0x2000 ≤ n && n ≤ 0x200A) || n == 0x2028 || n == 0x2029 || n == 0x202F || n == 0x205F ||
    n == 0x3000

/-- A character that separates tokens: space, tab, line feed or carriage return. -/
def isLayout (c : Char) : Bool :=
  c == ' ' || c == '\t' || c == '\n' || c == '\r'

theorem isBlank_of_isLayout {c : Char} (layout : isLayout c = true) : isBlank c = true := by
  simp only [isLayout, Bool.or_eq_true, beq_iff_eq] at layout
  rcases layout with ((rfl | rfl) | rfl) | rfl <;> decide

def trimEnd (text : List Char) : List Char :=
  (text.reverse.dropWhile isBlank).reverse

/-- The last character of the text that is not blank. -/
def lastMark? (text : List Char) : Option Char :=
  (text.filter (fun c => !isBlank c)).getLast?

def decimalDigit? (c : Char) : Option Nat :=
  if '0' ≤ c ∧ c ≤ '9' then some (c.toNat - '0'.toNat) else none

/-- The value of a hexadecimal digit; letters count in either case. -/
def hexDigit? (c : Char) : Option Nat :=
  if '0' ≤ c ∧ c ≤ '9' then some (c.toNat - '0'.toNat)
  else if 'A' ≤ c ∧ c ≤ 'F' then some (c.toNat - 'A'.toNat + 10)
  else if 'a' ≤ c ∧ c ≤ 'f' then some (c.toNat - 'a'.toNat + 10)
  else none

def isDecimalDigit (c : Char) : Bool := (decimalDigit? c).isSome

def isHexDigit (c : Char) : Bool := (hexDigit? c).isSome

theorem hexDigit?_of_decimalDigit? {c : Char} {value : Nat}
    (digit : decimalDigit? c = some value) : hexDigit? c = some value := by
  unfold decimalDigit? at digit
  unfold hexDigit?
  split at digit
  · rename_i inside
    rw [if_pos inside]
    exact digit
  · cases digit

/-- A character that ends a line: besides the line feed there are six others. -/
def isLineEnd (c : Char) : Bool :=
  let n := c.toNat
  (0x0A ≤ n && n ≤ 0x0D) || n == 0x85 || n == 0x2028 || n == 0x2029

/-- A line of a text: the offset of its first character, and its characters with those that end it. -/
structure Line where
  start : Nat
  text : List Char
deriving DecidableEq, Repr

def Line.extend (c : Char) (start : Nat) : List Line → List Line
  | [] => [⟨start, [c]⟩]
  | line :: rest => ⟨start, c :: line.text⟩ :: rest

/-- The lines of a text whose first character has the given offset. A text that ends with the end of a line has no
line after it. -/
def linesFrom (start : Nat) : List Char → List Line
  | [] => []
  | '\r' :: '\n' :: rest => ⟨start, ['\r', '\n']⟩ :: linesFrom (start + 2) rest
  | c :: rest =>
    if isLineEnd c then ⟨start, [c]⟩ :: linesFrom (start + 1) rest
    else Line.extend c start (linesFrom (start + 1) rest)

/-- The lines of a text; an empty text is one empty line. -/
def lines (text : List Char) : List Line :=
  if text.isEmpty then [⟨0, []⟩] else linesFrom 0 text

end Abacus.Text
