import Abacus.Expr
import Abacus.Token

set_option autoImplicit false

/- Reading statements off a list of lexemes. Every reading takes at least one lexeme, which is why it ends, and
it never looks beyond the first lexeme that it leaves. Places in a text play no part in it: where reading
halts, the lexemes that are left tell the place. -/
namespace Abacus

inductive Expected where
  | variableName
  | assign
  | colon
  | rparen
  | expression
  | lbracket
  | numberLiteral
  | rbracket
deriving DecidableEq, Repr

def Expected.text : Expected → String
  | variableName => "variable name"
  | assign => "'='"
  | colon => "':'"
  | rparen => "')'"
  | expression => "expression"
  | lbracket => "'['"
  | numberLiteral => "number literal"
  | rbracket => "']'"

/-- Why reading cannot go on. What was found instead is `none` at the end of the text. -/
inductive Problem where
  | unexpected (expected : Expected) (found : Option Lexeme)
  | missingTerminator (found : Option Lexeme)
  | chainedComparison (op : BinaryOp)
  | invalidNumber (text : String)
  | listOutsideMembership
  | tooDeep (depth limit : Nat)
deriving DecidableEq, Repr

namespace Problem

def message : Problem → String
  | unexpected expected found => s!"expected {expected.text}, found {Lexeme.describe found}"
  | missingTerminator found => s!"expected ';' after statement, found {Lexeme.describe found}"
  | chainedComparison op =>
    s!"comparison operators cannot be chained, found '{op.symbol}' after a comparison"
  | invalidNumber text => s!"invalid number literal '{text}'"
  | listOutsideMembership => "array literal is only allowed after 'in'"
  | tooDeep depth limit =>
    s!"expression nesting depth {depth} exceeds maximum of {limit} levels"

/-- The code under which the problem is documented. -/
def code : Problem → String
  | unexpected _ _ => "P001"
  | missingTerminator _ => "P002"
  | chainedComparison _ => "P003"
  | invalidNumber _ => "P004"
  | listOutsideMembership => "P005"
  | tooDeep _ _ => "P006"

def help? : Problem → Option String
  | unexpected _ _ => none
  | missingTerminator _ => some "Terminate each statement with ';'"
  | chainedComparison _ =>
    some "Combine comparisons with '&&' or '||', e.g. 'a < b && b < c'"
  | invalidNumber _ => some "Integer literals must fit in a signed 64-bit integer"
  | listOutsideMembership => some "Use the literal list in a membership test, e.g. 'x in [1, 2]'"
  | tooDeep _ _ => some "Reduce nesting or simplify the expression"

end Problem

structure ParseError where
  problem : Problem
  position : Position
deriving DecidableEq, Repr

def ParseError.message (error : ParseError) : String :=
  s!"{error.problem.message} at {error.position}"

/-- Where reading halted: before the first lexeme of `rest`, or at the end if there is none. -/
structure Halt where
  problem : Problem
  rest : List Lexeme
deriving DecidableEq, Repr

/-- A value read off the front of `input`, and the lexemes after it. -/
structure Reading (α : Type) (input : List Lexeme) where
  value : α
  rest : List Lexeme
  shorter : rest.length < input.length

abbrev Read (α : Type) (input : List Lexeme) := Except Halt (Reading α input)

namespace Reading

variable {α β : Type} {input : List Lexeme}

def map (f : α → β) (reading : Reading α input) : Reading β input :=
  ⟨f reading.value, reading.rest, reading.shorter⟩

/-- A value that a later reading completes: it takes what the earlier reading left. -/
def andThen (first : Reading α input) (second : Reading β first.rest) : Reading β input :=
  ⟨second.value, second.rest, Nat.lt_trans second.shorter first.shorter⟩

end Reading

namespace Read

def unexpected {α : Type} (expected : Expected) (input : List Lexeme) : Read α input :=
  .error ⟨.unexpected expected input.head?, input⟩

def sign (wanted : Lexeme) (expected : Expected) : (input : List Lexeme) → Read Unit input
  | [] => unexpected expected []
  | found :: rest =>
    if found = wanted then .ok ⟨(), rest, Nat.lt_succ_self _⟩
    else unexpected expected (found :: rest)

def variableName : (input : List Lexeme) → Read String input
  | .name text :: rest => .ok ⟨text, rest, Nat.lt_succ_self _⟩
  | input => unexpected .variableName input

def number : (input : List Lexeme) → Read Int64 input
  | .number text :: rest =>
    match Literal.read text with
    | .ok value => .ok ⟨value, rest, Nat.lt_succ_self _⟩
    | .error _ => .error ⟨.invalidNumber text, .number text :: rest⟩
  | input => unexpected .numberLiteral input

def numbers (input : List Lexeme) : Read (List Int64) input := do
  let first ← number input
  match stop : first.rest with
  | .comma :: after =>
    let others ← numbers after
    return ⟨first.value :: others.value, others.rest, by
      have := first.shorter
      have := others.shorter
      simp only [stop, List.length_cons] at *
      omega⟩
  | _ => return first.map ([·])
termination_by input.length
decreasing_by
  have := first.shorter
  simp only [stop, List.length_cons] at this
  omega

def literalSet (input : List Lexeme) : Read (List Int64) input := do
  let opening ← sign .lbracket .lbracket input
  let values ← numbers opening.rest
  let closing ← sign .rbracket .rbracket values.rest
  return opening.andThen (values.andThen (closing.map fun _ => values.value))

def memberships {input : List Lexeme} (left : Reading Expr input) : Read Expr input :=
  match stop : left.rest with
  | .isIn :: after => do
    let set ← literalSet after
    have shorter : set.rest.length < left.rest.length := by
      have := set.shorter
      simp only [stop, List.length_cons]
      omega
    memberships ⟨.member left.value set.value, set.rest, Nat.lt_trans shorter left.shorter⟩
  | _ => .ok left
termination_by left.rest.length
decreasing_by
  have := set.shorter
  simp only [stop, List.length_cons]
  omega

/-- Refuses a comparison operator right after a comparison. -/
def unchained {input : List Lexeme} (comparison : Reading Expr input) : Read Expr input :=
  match comparison.rest with
  | .connective (.binary op) :: after =>
    if op.isComparison then
      .error ⟨.chainedComparison op, .connective (.binary op) :: after⟩
    else .ok comparison
  | _ => .ok comparison

mutual

/-- Reads an expression, one level below `depth`. -/
def expression (limit depth : Nat) (input : List Lexeme) : Read Expr input :=
  if depth < limit then do
    let condition ← infixed limit (depth + 1) .disjunction input
    match stop : condition.rest with
    | .question :: afterMark =>
      let yes ← expression limit (depth + 1) afterMark
      let mark ← sign .colon .colon yes.rest
      let no ← expression limit (depth + 1) mark.rest
      return ⟨.ternary condition.value yes.value no.value, no.rest, by
        have := condition.shorter
        have := yes.shorter
        have := mark.shorter
        have := no.shorter
        simp only [stop, List.length_cons] at *
        omega⟩
    | _ => return condition
  else .error ⟨.tooDeep (depth + 1) limit, input⟩
termination_by (input.length, 14)
decreasing_by
  · exact Prod.Lex.right _ (by decide)
  · apply Prod.Lex.left
    have := condition.shorter
    simp only [stop, List.length_cons] at this
    omega
  · apply Prod.Lex.left
    have := condition.shorter
    have := yes.shorter
    have := mark.shorter
    simp only [stop, List.length_cons] at *
    omega

/-- Reads operands of a level with its operators between them. -/
def infixed (limit depth : Nat) (level : Level) (input : List Lexeme) : Read Expr input := do
  let left ← operand limit depth level input
  links limit depth level left
termination_by (input.length, 2 * level.height + 1)
decreasing_by
  · exact Prod.Lex.right _ (Nat.lt_succ_self _)
  · exact Prod.Lex.left _ _ left.shorter

/-- Reads what an operator of a level joins: an expression of the next tighter level. -/
def operand (limit depth : Nat) (level : Level) (input : List Lexeme) : Read Expr input :=
  match _ : level.tighter? with
  | some next => infixed limit depth next input
  | none => unary limit depth input
termination_by (input.length, 2 * level.height)
decreasing_by
  · apply Prod.Lex.right
    have := Level.height_of_tighter? (by assumption : level.tighter? = some next)
    omega
  · apply Prod.Lex.right
    cases level <;> decide

/-- Joins to `left` what operators of the level follow it, leftmost first. Comparisons join once. -/
def links (limit depth : Nat) (level : Level) {input : List Lexeme} (left : Reading Expr input) :
    Read Expr input :=
  match stop : left.rest with
  | .connective op :: after =>
    if op.level = level then do
      let right ← operand limit depth level after
      have shorter : right.rest.length < left.rest.length := by
        have := right.shorter
        simp only [stop, List.length_cons]
        omega
      let joined : Reading Expr input :=
        ⟨op.join left.value right.value, right.rest, Nat.lt_trans shorter left.shorter⟩
      if level.isComparison then unchained joined else links limit depth level joined
    else .ok left
  | _ => .ok left
termination_by (left.rest.length, 0)
decreasing_by
  · apply Prod.Lex.left
    simp only [stop, List.length_cons]
    omega
  · apply Prod.Lex.left
    exact shorter

/-- Reads a unary expression. Each unary operator nests its operand one level deeper. -/
def unary (limit depth : Nat) (input : List Lexeme) : Read Expr input :=
  match input with
  | .connective (.binary .sub) :: after => prefixed limit depth .neg after
  | .bang :: after => prefixed limit depth .not after
  | input => do
    let atom ← atom limit depth input
    memberships atom
termination_by (input.length, 1)

def prefixed (limit depth : Nat) (op : UnaryOp) {sign : Lexeme} (after : List Lexeme) :
    Read Expr (sign :: after) :=
  if depth < limit then do
    let inner ← unary limit (depth + 1) after
    return ⟨.unary op inner.value, inner.rest, Nat.lt_succ_of_lt inner.shorter⟩
  else .error ⟨.tooDeep (depth + 1) limit, after⟩
termination_by (after.length, 2)

def atom (limit depth : Nat) (input : List Lexeme) : Read Expr input :=
  match input with
  | .number text :: rest => do
    let value ← number (.number text :: rest)
    return value.map .number
  | .name text :: rest => .ok ⟨.name text, rest, Nat.lt_succ_self _⟩
  | .lparen :: rest => do
    let inner ← expression limit depth rest
    let closing ← sign .rparen .rparen inner.rest
    return ⟨.paren inner.value, closing.rest, by
      have := inner.shorter
      have := closing.shorter
      simp only [List.length_cons]
      omega⟩
  | .lbracket :: rest => .error ⟨.listOutsideMembership, .lbracket :: rest⟩
  | input => unexpected .expression input
termination_by (input.length, 0)

end

def terminator : (input : List Lexeme) → Read Unit input
  | .semicolon :: rest => .ok ⟨(), rest, Nat.lt_succ_self _⟩
  | input => .error ⟨.missingTerminator input.head?, input⟩

def statement (limit : Nat) (input : List Lexeme) : Read Statement input :=
  match input with
  | .var :: rest => do
    let name ← variableName rest
    let sign ← sign .assign .assign name.rest
    let value ← expression limit 0 sign.rest
    let stop ← terminator value.rest
    return ⟨.assignment name.value value.value, stop.rest, by
      have := name.shorter
      have := sign.shorter
      have := value.shorter
      have := stop.shorter
      simp only [List.length_cons]
      omega⟩
  | input => do
    let value ← expression limit 0 input
    let stop ← terminator value.rest
    return value.andThen (stop.map fun _ => .expression value.value)

def program (limit : Nat) (input : List Lexeme) : Except Halt Program :=
  match input with
  | [] => .ok []
  | first :: rest => do
    let head ← statement limit (first :: rest)
    let others ← program limit head.rest
    return head.value :: others
termination_by input.length
decreasing_by exact head.shorter

end Read

def defaultNestingLimit : Nat := 64

/-- The place at which reading halted, as an index into the tokens. -/
def Scan.haltIndex (scan : Scan) (halt : Halt) : Nat := scan.tokens.length - halt.rest.length

def Scan.error (scan : Scan) (halt : Halt) : ParseError :=
  ⟨halt.problem, scan.positionAt (scan.haltIndex halt)⟩

/-- Parses a source text under a limit on the nesting of its expressions. An error rejects the whole text. -/
def Program.parse (limit : Nat) (source : String) : Except ParseError Program :=
  let scan := Scan.ofSource source
  (Read.program limit scan.lexemes).mapError scan.error

end Abacus
