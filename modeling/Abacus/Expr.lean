import Abacus.Operator

set_option autoImplicit false

namespace Abacus

/-- An integer expression. Grouping stays in the tree, so that the text of a tree that was read reads
back to it. -/
inductive Expr where
  | number (value : Int64)
  | name (text : String)
  | unary (op : UnaryOp) (operand : Expr)
  | paren (inner : Expr)
  | binary (op : BinaryOp) (left right : Expr)
  | logic (op : LogicOp) (left right : Expr)
  | member (value : Expr) (set : List Int64)
  | ternary (condition yes no : Expr)
deriving DecidableEq, Repr

def Connective.join : Connective → Expr → Expr → Expr
  | binary op => Expr.binary op
  | logic op => Expr.logic op

namespace Expr

/-- The text of an expression: one space on each side of an infix operator, none after a unary one. -/
def text : Expr → String
  | number value => toString value
  | name text => text
  | unary op operand => op.symbol ++ operand.text
  | paren inner => "(" ++ inner.text ++ ")"
  | binary op left right => left.text ++ " " ++ op.symbol ++ " " ++ right.text
  | logic op left right => left.text ++ " " ++ op.symbol ++ " " ++ right.text
  | member value set => value.text ++ " in [" ++ ", ".intercalate (set.map toString) ++ "]"
  | ternary condition yes no => condition.text ++ " ? " ++ yes.text ++ " : " ++ no.text

def size : Expr → Nat
  | number _ => 1
  | name _ => 1
  | unary _ operand => operand.size + 1
  | paren inner => inner.size + 1
  | binary _ left right => left.size + right.size + 1
  | logic _ left right => left.size + right.size + 1
  | member value _ => value.size + 1
  | ternary condition yes no => condition.size + yes.size + no.size + 1

theorem size_pos (e : Expr) : 0 < e.size := by
  cases e <;> simp only [size] <;> omega

end Expr

/-- A statement of a program: an expression to be evaluated, or a name to be bound to its value. -/
inductive Statement where
  | expression (e : Expr)
  | assignment (name : String) (e : Expr)
deriving DecidableEq, Repr

namespace Statement

def expr : Statement → Expr
  | expression e => e
  | assignment _ e => e

/-- The text of a statement, its terminator included. -/
def text : Statement → String
  | expression e => e.text ++ ";"
  | assignment name e => "var " ++ name ++ " = " ++ e.text ++ ";"

end Statement

abbrev Program := List Statement

/-- The text of a program: its statements with a space between them. -/
def Program.text (program : Program) : String := " ".intercalate (program.map Statement.text)

/-- The names in an expression from left to right, each as often as it occurs. -/
def Expr.names : Expr → List String
  | number _ => []
  | name text => [text]
  | unary _ operand => operand.names
  | paren inner => inner.names
  | binary _ left right => left.names ++ right.names
  | logic _ left right => left.names ++ right.names
  | member value _ => value.names
  | ternary condition yes no => condition.names ++ yes.names ++ no.names

/-- The arithmetic and comparison operators in an expression from left to right, each as often as it occurs. -/
def Expr.operators : Expr → List BinaryOp
  | number _ => []
  | name _ => []
  | unary _ operand => operand.operators
  | paren inner => inner.operators
  | binary op left right => left.operators ++ op :: right.operators
  | logic _ left right => left.operators ++ right.operators
  | member value _ => value.operators
  | ternary condition yes no => condition.operators ++ yes.operators ++ no.operators

/-- The names in the expressions of a program; those that it assigns to do not count. -/
def Program.names (program : Program) : List String :=
  program.flatMap fun statement => statement.expr.names

def Expr.ungrouped : Expr → Expr
  | number value => number value
  | name text => name text
  | unary op operand => unary op operand.ungrouped
  | paren inner => inner.ungrouped
  | binary op left right => binary op left.ungrouped right.ungrouped
  | logic op left right => logic op left.ungrouped right.ungrouped
  | member value set => member value.ungrouped set
  | ternary condition yes no => ternary condition.ungrouped yes.ungrouped no.ungrouped

/-- The greatest number of parentheses, unary operators and ternary branches around one part of the tree. -/
def Expr.nesting : Expr → Nat
  | number _ => 0
  | name _ => 0
  | unary _ operand => operand.nesting + 1
  | paren inner => inner.nesting + 1
  | binary _ left right => max left.nesting right.nesting
  | logic _ left right => max left.nesting right.nesting
  | member value _ => value.nesting
  | ternary condition yes no => max condition.nesting (max yes.nesting no.nesting + 1)

/-- A statement is one level around its expression. -/
def Statement.nesting (statement : Statement) : Nat := statement.expr.nesting + 1

@[simp] theorem Expr.nesting_join (op : Connective) (left right : Expr) :
    (op.join left right).nesting = max left.nesting right.nesting := by
  cases op <;> rfl

/-- A path leads from the root of the tree to a leaf, with the given number of steps into parentheses, below unary
operators or into branches of ternaries. Steps to the operands of infix operators, to a tested value and to a condition
do not count. -/
inductive Expr.HasPath : Expr → Nat → Prop
  | number {value : Int64} : HasPath (number value) 0
  | name {text : String} : HasPath (name text) 0
  | unary {op : UnaryOp} {operand : Expr} {steps : Nat} (below : HasPath operand steps) :
      HasPath (unary op operand) (steps + 1)
  | paren {inner : Expr} {steps : Nat} (below : HasPath inner steps) : HasPath (paren inner) (steps + 1)
  | left {op : Connective} {left right : Expr} {steps : Nat} (below : HasPath left steps) :
      HasPath (op.join left right) steps
  | right {op : Connective} {left right : Expr} {steps : Nat} (below : HasPath right steps) :
      HasPath (op.join left right) steps
  | member {value : Expr} {set : List Int64} {steps : Nat} (below : HasPath value steps) :
      HasPath (member value set) steps
  | condition {condition yes no : Expr} {steps : Nat} (below : HasPath condition steps) :
      HasPath (ternary condition yes no) steps
  | yes {condition yes no : Expr} {steps : Nat} (below : HasPath yes steps) :
      HasPath (ternary condition yes no) (steps + 1)
  | no {condition yes no : Expr} {steps : Nat} (below : HasPath no steps) :
      HasPath (ternary condition yes no) (steps + 1)

namespace Expr

theorem HasPath.le_nesting {e : Expr} {steps : Nat} (path : e.HasPath steps) : steps ≤ e.nesting := by
  induction path with
  | left _ ih =>
      rw [nesting_join]
      omega
  | right _ ih =>
      rw [nesting_join]
      omega
  | _ =>
      simp only [nesting]
      omega

/-- The nesting of a tree is the length of a path. -/
theorem hasPath_nesting (e : Expr) : e.HasPath e.nesting := by
  have joined (op : Connective) {left right : Expr} (pathLeft : left.HasPath left.nesting)
      (pathRight : right.HasPath right.nesting) :
      (op.join left right).HasPath (max left.nesting right.nesting) := by
    rcases Nat.le_total left.nesting right.nesting with order | order
    · rw [Nat.max_eq_right order]
      exact .right pathRight
    · rw [Nat.max_eq_left order]
      exact .left pathLeft
  induction e with
  | number value => exact .number
  | name text => exact .name
  | unary op operand ih => exact .unary ih
  | paren inner ih => exact .paren ih
  | binary op left right ihLeft ihRight => exact joined (.binary op) ihLeft ihRight
  | logic op left right ihLeft ihRight => exact joined (.logic op) ihLeft ihRight
  | member value set ih => exact .member ih
  | ternary condition yes no ihCondition ihYes ihNo =>
      simp only [nesting]
      rcases Nat.le_total condition.nesting (max yes.nesting no.nesting + 1) with deeper | deeper
      · rw [Nat.max_eq_right deeper]
        rcases Nat.le_total yes.nesting no.nesting with order | order
        · rw [Nat.max_eq_right order]
          exact .no ihNo
        · rw [Nat.max_eq_left order]
          exact .yes ihYes
      · rw [Nat.max_eq_left deeper]
        exact .condition ihCondition

end Expr

end Abacus
