import Abacus.Reading

set_option autoImplicit false

namespace Abacus

/-- The operator that a token may be read as between two operands of an arithmetic or comparing expression. -/
def BinaryOp.ofToken? : Option Lexeme → Option BinaryOp
  | some (.connective (.binary op)) => some op
  | _ => none

def Level.isOperator : Level → Option Lexeme → Bool
  | disjunction, some (.connective (.logic .or)) => true
  | conjunction, some (.connective (.logic .and)) => true
  | equality, some (.connective (.binary .eq)) | equality, some (.connective (.binary .ne)) => true
  | relational, some (.connective (.binary .ge)) | relational, some (.connective (.binary .gt)) => true
  | relational, some (.connective (.binary .le)) | relational, some (.connective (.binary .lt)) => true
  | additive, some (.connective (.binary .add)) | additive, some (.connective (.binary .sub)) => true
  | multiplicative, some (.connective (.binary .mul)) | multiplicative, some (.connective (.binary .div)) => true
  | multiplicative, some (.connective (.binary .rem)) => true
  | _, _ => false

def UnaryOp.ofToken? : Option Lexeme → Option UnaryOp
  | some (.connective (.binary .sub)) => some .neg
  | some .bang => some .not
  | _ => none

/-- The text of a token; the end of the text has none. -/
def Lexeme.literal : Option Lexeme → String
  | some lexeme => lexeme.text
  | none => ""

/-- The token that a parser holds, `none` at the end of the text, with its place; the scanner behind that token; the
number of times that the scanner was called; and the tokens that were taken, in order. -/
structure Parser where
  current : Option Lexeme
  place : Position
  scanner : Scanner
  scans : Nat
  taken : List (Option Lexeme)
deriving DecidableEq, Repr

namespace Parser

/-- Why a parser stops: the text has a problem, or a token that was seen to be an operator is none. -/
inductive Stop where
  | problem (error : ParseError)
  | noOperator (found : Option Lexeme) (place : Position)
deriving DecidableEq, Repr

/-- What a parser does. There is no result if it never ends. -/
abbrev Action (α : Type) := ExceptT Stop (StateT Parser Option) α

/-- A parser with what its scanner gives in a first call. -/
def ofScanner (scanner : Scanner) : Parser where
  current := scanner.next.1.1
  place := scanner.next.1.2
  scanner := scanner.next.2
  scans := 1
  taken := []

def advanced (parser : Parser) : Parser where
  current := parser.scanner.next.1.1
  place := parser.scanner.next.1.2
  scanner := parser.scanner.next.2
  scans := parser.scans + 1
  taken := parser.taken ++ [parser.current]

def token : Action (Option Lexeme) := do
  let parser ← get
  return parser.current

def advance : Action Unit := modify advanced

def fail {α : Type} (problem : Problem) : Action α := do
  let parser ← get
  throw (.problem ⟨problem, parser.place⟩)

def unexpected {α : Type} (expected : Expected) : Action α := do
  let found ← token
  fail (.unexpected expected found)

def expect (wanted : Lexeme) (expected : Expected) : Action Unit := do
  let found ← token
  if found = some wanted then advance else unexpected expected

def variableName : Action String := do
  let found ← token
  match found with
  | some (.name text) => do
    advance
    return text
  | _ => unexpected .variableName

/-- The arithmetic or comparing operator that the token is. -/
def binaryOp : Action BinaryOp := do
  let found ← token
  match BinaryOp.ofToken? found with
  | some op => return op
  | none => do
    let parser ← get
    throw (.noOperator found parser.place)

/-- The operator that the token is where it was seen to be one of the level. -/
def connective : Level → Action Connective
  | .disjunction => return .logic .or
  | .conjunction => return .logic .and
  | _ => do
    let op ← binaryOp
    return .binary op

def number : Action Int64 := do
  let found ← token
  match Literal.read (Lexeme.literal found) with
  | .ok value => do
    advance
    return value
  | .error _ => fail (.invalidNumber (Lexeme.literal found))

def numberLiteral : Action Int64 := do
  let found ← token
  match found with
  | some (.number _) => number
  | _ => unexpected .numberLiteral

/-- A loop: whether the token tells it to go on, and the item that it takes then. -/
structure Loop (α : Type) where
  goesOn : Option Lexeme → Bool
  item : Action α

def Loop.run {α : Type} (loop : Loop α) : Action (List α) := do
  let found ← token
  if loop.goesOn found then do
    let first ← loop.item
    let others ← loop |>.run
    return first :: others
  else return []
partial_fixpoint

/-- Goes on behind a comma, with a number literal. -/
def commas : Loop Int64 where
  goesOn found := found == some .comma
  item := do
    advance
    numberLiteral

def numbers : Action (List Int64) := do
  let first ← numberLiteral
  let others ← commas.run
  return first :: others

def literalSet : Action (List Int64) := do
  expect .lbracket .lbracket
  let values ← numbers
  expect .rbracket .rbracket
  return values

/-- The parts that parsing an expression has, with what they go on from. -/
inductive Routine where
  | nested (inner : Routine)
  | expression
  | ternary
  | infixed (level : Level)
  | operand (level : Level)
  | links (level : Level) (left : Expr)
  | comparison (level : Level) (left : Expr)
  | unary
  | primary
  | memberships (value : Expr)
  | atom
deriving DecidableEq, Repr

/-- Does a part of parsing an expression, at a depth of nesting. -/
def Routine.run (limit depth : Nat) : Routine → Action Expr
  | nested inner => do
    if depth < limit then inner |>.run limit (depth + 1)
    else fail (.tooDeep (depth + 1) limit)
  | expression => nested .ternary |>.run limit depth
  | ternary => do
    let condition ← infixed .disjunction |>.run limit depth
    let next ← token
    if next = some .question then do
      advance
      let yes ← expression |>.run limit depth
      expect .colon .colon
      let no ← expression |>.run limit depth
      return .ternary condition yes no
    else return condition
  | infixed level => do
    let left ← operand level |>.run limit depth
    links level left |>.run limit depth
  | operand level =>
    match level.tighter? with
    | some next => infixed next |>.run limit depth
    | none => unary |>.run limit depth
  | links level left => do
    let next ← token
    if level.isOperator next then
      if level.isComparison then comparison level left |>.run limit depth
      else do
        let op ← connective level
        advance
        let right ← operand level |>.run limit depth
        links level (op.join left right) |>.run limit depth
    else return left
  | comparison level left => do
    let op ← binaryOp
    advance
    let right ← operand level |>.run limit depth
    let following ← token
    match BinaryOp.ofToken? following with
    | some next =>
      if next.isComparison then fail (.chainedComparison next)
      else return .binary op left right
    | none => return .binary op left right
  | unary => do
    let found ← token
    match UnaryOp.ofToken? found with
    | some op => do
      advance
      let inner ← nested .unary |>.run limit depth
      return .unary op inner
    | none => primary |>.run limit depth
  | primary => do
    let value ← atom |>.run limit depth
    memberships value |>.run limit depth
  | memberships value => do
    let next ← token
    if next = some .isIn then do
      advance
      let set ← literalSet
      memberships (.member value set) |>.run limit depth
    else return value
  | atom => do
    let found ← token
    match found with
    | some (.number _) => do
      let value ← number
      return .number value
    | some (.name text) => do
      advance
      return .name text
    | some .lparen => do
      advance
      let inner ← expression |>.run limit depth
      expect .rparen .rparen
      return .paren inner
    | some .lbracket => fail .listOutsideMembership
    | _ => unexpected .expression
partial_fixpoint

def terminator : Action Unit := do
  let found ← token
  if found = some .semicolon then advance
  else fail (.missingTerminator found)

def statement (limit : Nat) : Action Statement := do
  let found ← token
  if found = some .var then do
    advance
    let name ← variableName
    expect .assign .assign
    let value ← Routine.expression.run limit 0
    terminator
    return .assignment name value
  else do
    let value ← Routine.expression.run limit 0
    terminator
    return .expression value

def statements (limit : Nat) : Loop Statement where
  goesOn := Option.isSome
  item := statement limit

def program (limit : Nat) : Action Program := (statements limit).run

/-- Parses a source text: the program or why the parser stopped, and the parser at that point. -/
def parse (limit : Nat) (source : String) : Option (Except Stop Program × Parser) :=
  program limit (ofScanner (.ofSource source))

end Parser

end Abacus
