import Abacus.Operator
import Abacus.Text

set_option autoImplicit false

namespace Abacus

inductive LiteralError where
  | overflow
  | invalidDigit
deriving DecidableEq, Repr

def LiteralError.message (text : String) : LiteralError → String
  | overflow => s!"integer literal '{text}' is too large"
  | invalidDigit => s!"invalid integer literal '{text}'"

namespace Literal

def maxValue : Nat := 9223372036854775807

/-- Reads digits from left to right on top of `value`. It stops at the first fault: a character that is no
digit, or a digit that takes the value above `bound`. -/
def magnitude (base bound : Nat) (digit? : Char → Option Nat) (value : Nat) :
    List Char → Except LiteralError Nat
  | [] => .ok value
  | c :: rest =>
    match digit? c with
    | none => .error .invalidDigit
    | some digit =>
      let next := value * base + digit
      if next ≤ bound then magnitude base bound digit? next rest else .error .overflow

/-- At least one decimal digit, after a sign. The least value lies one further from zero than the
greatest. -/
def readDecimal (negative : Bool) : List Char → Except LiteralError Int64
  | [] => .error .invalidDigit
  | digits =>
    if negative then
      (magnitude 10 (maxValue + 1) Text.decimalDigit? 0 digits).map (fun n => Int64.ofInt (-n))
    else
      (magnitude 10 maxValue Text.decimalDigit? 0 digits).map Int64.ofNat

/-- Hexadecimal digits, of which there may be none. -/
def readHex (digits : List Char) : Except LiteralError Int64 :=
  (magnitude 16 maxValue Text.hexDigit? 0 digits).map Int64.ofNat

/-- The value of a literal: hexadecimal after `0X` or `0x`, else decimal with an optional sign. -/
def read (text : String) : Except LiteralError Int64 :=
  match text.toList with
  | '0' :: 'X' :: digits => readHex digits
  | '0' :: 'x' :: digits => readHex digits
  | '+' :: digits => readDecimal false digits
  | '-' :: digits => readDecimal true digits
  | digits => readDecimal false digits

def positional (base : Nat) (digit? : Char → Option Nat) (digits : List Char) : Option Nat :=
  (digits.mapM digit?).map (List.foldl (fun value digit => value * base + digit) 0)

/-- The number that the text of a number lexeme denotes, however large. The hexadecimal mark alone denotes
zero. -/
def denotes? (text : String) : Option Nat :=
  match text.toList with
  | [] => none
  | '0' :: 'X' :: digits => positional 16 Text.hexDigit? digits
  | digits => positional 10 Text.decimalDigit? digits

end Literal

/-- A word or sign of the language. A number keeps its digits as text, with a hexadecimal one
written `0X` and in capitals. -/
inductive Lexeme where
  | name (text : String)
  | number (text : String)
  | var
  | isIn
  | lparen
  | rparen
  | lbracket
  | rbracket
  | semicolon
  | comma
  | question
  | colon
  | assign
  | bang
  | connective (op : Connective)
  | unknown (c : Char)
deriving DecidableEq, Repr

namespace Lexeme

abbrev binary (op : BinaryOp) : Lexeme := connective (.binary op)

abbrev logic (op : LogicOp) : Lexeme := connective (.logic op)

def text : Lexeme → String
  | name text => text
  | number text => text
  | var => "var"
  | isIn => "in"
  | lparen => "("
  | rparen => ")"
  | lbracket => "["
  | rbracket => "]"
  | semicolon => ";"
  | comma => ","
  | question => "?"
  | colon => ":"
  | assign => "="
  | bang => "!"
  | connective op => op.symbol
  | unknown c => c.toString

/-- What stands at a place of a program, in words; `none` is its end. -/
def describe : Option Lexeme → String
  | none => "end of input"
  | some (name text) => s!"identifier '{text}'"
  | some (number text) => s!"number '{text}'"
  | some lexeme => s!"'{lexeme.text}'"

def isNameStart (c : Char) : Bool := c.isAlpha || c == '_'

def isNameRest (c : Char) : Bool := isNameStart c || Text.isDecimalDigit c

/-- A word is a name unless it is one of the two keywords. -/
def ofWord (word : String) : Lexeme :=
  if word = "var" then var
  else if word = "in" then isIn
  else name word

/-- The comparison `joined` if an equals sign comes next, else the sign that stands alone. -/
def followed (joined alone : Lexeme) : List Char → Lexeme × Nat
  | '=' :: _ => (joined, 1)
  | _ => (alone, 0)

def ofDigits (c : Char) (rest : List Char) : Lexeme × Nat :=
  let hex (digits : List Char) : Lexeme × Nat :=
    let taken := digits.takeWhile Text.isHexDigit
    (number (String.ofList ('0' :: 'X' :: taken.map Char.toUpper)), taken.length + 1)
  match c, rest with
  | '0', 'x' :: digits => hex digits
  | '0', 'X' :: digits => hex digits
  | _, _ =>
    let taken := rest.takeWhile Text.isDecimalDigit
    (number (String.ofList (c :: taken)), taken.length)

/-- The lexeme that starts with the character `c`, and how many of the characters after it belong to
it. An ampersand or a bar takes one character with it, whichever it is. -/
def first (c : Char) (rest : List Char) : Lexeme × Nat :=
  if isNameStart c then
    let taken := rest.takeWhile isNameRest
    (ofWord (String.ofList (c :: taken)), taken.length)
  else if Text.isDecimalDigit c then ofDigits c rest
  else match c with
    | '(' => (lparen, 0)
    | ')' => (rparen, 0)
    | '[' => (lbracket, 0)
    | ']' => (rbracket, 0)
    | ';' => (semicolon, 0)
    | ',' => (comma, 0)
    | '?' => (question, 0)
    | ':' => (colon, 0)
    | '+' => (binary .add, 0)
    | '-' => (binary .sub, 0)
    | '*' => (binary .mul, 0)
    | '/' => (binary .div, 0)
    | '%' => (binary .rem, 0)
    | '&' => (logic .and, 1)
    | '|' => (logic .or, 1)
    | '=' => followed (binary .eq) assign rest
    | '!' => followed (binary .ne) bang rest
    | '>' => followed (binary .ge) (binary .gt) rest
    | '<' => followed (binary .le) (binary .lt) rest
    | _ => (unknown c, 0)

end Lexeme

end Abacus
