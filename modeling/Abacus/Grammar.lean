import Abacus.Expr
import Abacus.Lexeme

set_option autoImplicit false

namespace Abacus

/-- The kinds of phrase that an expression is made of, loosest first. A primary phrase is an atom with the
membership tests after it. -/
inductive Phrase where
  | expression
  | infixed (level : Level)
  | unary
  | primary
  | atom
deriving DecidableEq, Repr

/-- What an operator of a level has to its right: a phrase of the next tighter kind. -/
def Level.operand (level : Level) : Phrase :=
  match level.tighter? with
  | some next => .infixed next
  | none => .unary

theorem Level.operand_of_tighter {level next : Level} (tighter : level.tighter? = some next) :
    level.operand = .infixed next := by
  simp only [operand, tighter]

theorem Level.operand_of_tightest {level : Level} (tightest : level.tighter? = none) :
    level.operand = .unary := by
  simp only [operand, tightest]

namespace Lexeme

inductive IsNumber : Lexeme → Int64 → Prop
  | intro {text : String} {n : Nat} (denotes : Literal.denotes? text = some n)
      (fits : n ≤ Literal.maxValue) : IsNumber (number text) (Int64.ofNat n)

/-- Numbers with commas between them, at least one. -/
inductive AreNumbers : List Lexeme → List Int64 → Prop
  | last {lexeme : Lexeme} {value : Int64} (head : IsNumber lexeme value) :
      AreNumbers [lexeme] [value]
  | more {lexeme : Lexeme} {value : Int64} {lexemes : List Lexeme} {values : List Int64}
      (head : IsNumber lexeme value) (others : AreNumbers lexemes values) :
      AreNumbers (lexeme :: comma :: lexemes) (value :: values)

end Lexeme

open Lexeme in
/-- The lexemes are a phrase of the given kind and spell the given tree. -/
inductive Spells : Phrase → List Lexeme → Expr → Prop
  | plain {lexemes : List Lexeme} {e : Expr}
      (body : Spells (.infixed .disjunction) lexemes e) : Spells .expression lexemes e
  | ternary {first second third : List Lexeme} {condition yes no : Expr}
      (head : Spells (.infixed .disjunction) first condition)
      (left : Spells .expression second yes) (right : Spells .expression third no) :
      Spells .expression (first ++ question :: second ++ colon :: third)
        (.ternary condition yes no)
  | tighter {level : Level} {lexemes : List Lexeme} {e : Expr}
      (body : Spells level.operand lexemes e) : Spells (.infixed level) lexemes e
  | joined {op : Connective} {first second : List Lexeme} {left right : Expr}
      (chains : op.level.isComparison = false)
      (before : Spells (.infixed op.level) first left)
      (after : Spells op.level.operand second right) :
      Spells (.infixed op.level) (first ++ connective op :: second) (op.join left right)
  | compared {op : BinaryOp} {first second : List Lexeme} {left right : Expr}
      (compares : op.isComparison = true)
      (before : Spells (.infixed .additive) first left)
      (after : Spells op.level.operand second right) :
      Spells (.infixed op.level) (first ++ binary op :: second) (.binary op left right)
  | negated {lexemes : List Lexeme} {operand : Expr} (body : Spells .unary lexemes operand) :
      Spells .unary (binary .sub :: lexemes) (.unary .neg operand)
  | denied {lexemes : List Lexeme} {operand : Expr} (body : Spells .unary lexemes operand) :
      Spells .unary (bang :: lexemes) (.unary .not operand)
  | primary {lexemes : List Lexeme} {e : Expr} (body : Spells .primary lexemes e) :
      Spells .unary lexemes e
  | member {first second : List Lexeme} {value : Expr} {set : List Int64}
      (before : Spells .primary first value) (after : AreNumbers second set) :
      Spells .primary (first ++ isIn :: lbracket :: second ++ [rbracket]) (.member value set)
  | atom {lexemes : List Lexeme} {e : Expr} (body : Spells .atom lexemes e) :
      Spells .primary lexemes e
  | number {lexeme : Lexeme} {value : Int64} (value_is : IsNumber lexeme value) :
      Spells .atom [lexeme] (.number value)
  | name {text : String} : Spells .atom [.name text] (.name text)
  | paren {lexemes : List Lexeme} {inner : Expr} (body : Spells .expression lexemes inner) :
      Spells .atom (lparen :: lexemes ++ [rparen]) (.paren inner)

open Lexeme in
/-- The lexemes are a statement without its terminator. -/
inductive SpellsStatement : List Lexeme → Statement → Prop
  | expression {lexemes : List Lexeme} {e : Expr} (body : Spells .expression lexemes e) :
      SpellsStatement lexemes (.expression e)
  | assignment {text : String} {lexemes : List Lexeme} {e : Expr}
      (body : Spells .expression lexemes e) :
      SpellsStatement (var :: .name text :: assign :: lexemes) (.assignment text e)

/-- The lexemes are statements, each with its terminator. -/
inductive SpellsProgram : List Lexeme → Program → Prop
  | nil : SpellsProgram [] []
  | cons {first second : List Lexeme} {statement : Statement} {program : Program}
      (head : SpellsStatement first statement) (rest : SpellsProgram second program) :
      SpellsProgram (first ++ .semicolon :: second) (statement :: program)

/-- How loosely the outermost operator of an expression binds. Atoms are tightest, with zero; membership tests and
unary operators follow, then the infix operators level by level, and ternaries are loosest. -/
def Expr.looseness : Expr → Nat
  | number _ => 0
  | name _ => 0
  | paren _ => 0
  | member _ _ => 1
  | unary _ _ => 2
  | binary op _ _ => op.level.height + 2
  | logic op _ _ => op.level.height + 2
  | ternary _ _ _ => 9

def isName (text : String) : Bool :=
  text != "var" && text != "in" &&
    match text.toList with
    | [] => false
    | c :: rest => Lexeme.isNameStart c && rest.all Lexeme.isNameRest

/-- How loosely the left operand of an operator may bind. The operands of a comparison contain no other one
outside parentheses, but for a relation to the right of an equality. -/
def BinaryOp.leftLimit (op : BinaryOp) : Nat :=
  if op.isComparison then Level.additive.height + 2 else op.level.height + 2

/-- The text of the expression reads back to it. -/
def Expr.IsCanonical : Expr → Prop
  | number value => 0 ≤ value
  | name text => isName text = true
  | unary _ operand => operand.looseness ≤ 2 ∧ operand.IsCanonical
  | paren inner => inner.IsCanonical
  | binary op left right =>
    left.looseness ≤ op.leftLimit ∧ right.looseness < op.level.height + 2 ∧
      left.IsCanonical ∧ right.IsCanonical
  | logic op left right =>
    left.looseness ≤ op.level.height + 2 ∧ right.looseness < op.level.height + 2 ∧
      left.IsCanonical ∧ right.IsCanonical
  | member value set =>
    value.looseness ≤ 1 ∧ set ≠ [] ∧ (∀ number ∈ set, 0 ≤ number) ∧ value.IsCanonical
  | ternary condition yes no =>
    condition.looseness < 9 ∧ condition.IsCanonical ∧ yes.IsCanonical ∧ no.IsCanonical

instance Expr.decidableIsCanonical : (e : Expr) → Decidable e.IsCanonical
  | number value => inferInstanceAs (Decidable (0 ≤ value))
  | name text => inferInstanceAs (Decidable (isName text = true))
  | unary _ operand =>
    have := decidableIsCanonical operand
    inferInstanceAs (Decidable (_ ∧ _))
  | paren inner => decidableIsCanonical inner
  | binary _ left right =>
    have := decidableIsCanonical left
    have := decidableIsCanonical right
    inferInstanceAs (Decidable (_ ∧ _ ∧ _ ∧ _))
  | logic _ left right =>
    have := decidableIsCanonical left
    have := decidableIsCanonical right
    inferInstanceAs (Decidable (_ ∧ _ ∧ _ ∧ _))
  | member value _ =>
    have := decidableIsCanonical value
    inferInstanceAs (Decidable (_ ∧ _ ∧ _ ∧ _))
  | ternary condition yes no =>
    have := decidableIsCanonical condition
    have := decidableIsCanonical yes
    have := decidableIsCanonical no
    inferInstanceAs (Decidable (_ ∧ _ ∧ _ ∧ _))

/-- The statement is canonical, and reads back under a limit on nesting. -/
def Statement.IsCanonical (limit : Nat) : Statement → Prop
  | expression e => e.IsCanonical ∧ e.nesting < limit
  | assignment name e => isName name = true ∧ e.IsCanonical ∧ e.nesting < limit

instance Statement.decidableIsCanonical (limit : Nat) :
    (statement : Statement) → Decidable (statement.IsCanonical limit)
  | expression _ => inferInstanceAs (Decidable (_ ∧ _))
  | assignment _ _ => inferInstanceAs (Decidable (_ ∧ _ ∧ _))

end Abacus
