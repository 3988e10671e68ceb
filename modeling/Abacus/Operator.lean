set_option autoImplicit false

namespace Abacus

/-- How tightly an infix operator binds, loosest first. -/
inductive Level where
  | disjunction
  | conjunction
  | equality
  | relational
  | additive
  | multiplicative
deriving DecidableEq, Repr

namespace Level

/-- The next tighter level; the operands of the tightest one are unary expressions. -/
def tighter? : Level → Option Level
  | disjunction => some conjunction
  | conjunction => some equality
  | equality => some relational
  | relational => some additive
  | additive => some multiplicative
  | multiplicative => none

/-- The number of levels from this one to the tightest, itself included. -/
def height : Level → Nat
  | disjunction => 6
  | conjunction => 5
  | equality => 4
  | relational => 3
  | additive => 2
  | multiplicative => 1

theorem height_of_tighter? {level next : Level} (step : level.tighter? = some next) :
    level.height = next.height + 1 := by
  cases level <;> cases step <;> rfl

/-- The levels of the comparisons, whose operators do not chain. -/
def isComparison : Level → Bool
  | equality | relational => true
  | _ => false

end Level

inductive BinaryOp where
  | add
  | sub
  | mul
  | div
  | rem
  | eq
  | ne
  | ge
  | gt
  | le
  | lt
deriving DecidableEq, Repr

namespace BinaryOp

def symbol : BinaryOp → String
  | add => "+"
  | sub => "-"
  | mul => "*"
  | div => "/"
  | rem => "%"
  | eq => "=="
  | ne => "!="
  | ge => ">="
  | gt => ">"
  | le => "<="
  | lt => "<"

def level : BinaryOp → Level
  | add | sub => .additive
  | mul | div | rem => .multiplicative
  | eq | ne => .equality
  | ge | gt | le | lt => .relational

/-- Whether the operator compares its operands. -/
def isComparison (op : BinaryOp) : Bool := op.level.isComparison

end BinaryOp

/-- Logic operators, which evaluate their right operand only when it decides. -/
inductive LogicOp where
  | and
  | or
deriving DecidableEq, Repr

namespace LogicOp

def symbol : LogicOp → String
  | and => "&&"
  | or => "||"

def level : LogicOp → Level
  | and => .conjunction
  | or => .disjunction

end LogicOp

inductive UnaryOp where
  | neg
  | not
deriving DecidableEq, Repr

def UnaryOp.symbol : UnaryOp → String
  | neg => "-"
  | not => "!"

/-- An operator that stands between two operands. -/
inductive Connective where
  | binary (op : BinaryOp)
  | logic (op : LogicOp)
deriving DecidableEq, Repr

namespace Connective

def symbol : Connective → String
  | binary op => op.symbol
  | logic op => op.symbol

def level : Connective → Level
  | binary op => op.level
  | logic op => op.level

end Connective

inductive EvalError where
  | undefinedVariable (name : String)
  | divisionByZero (op : BinaryOp)
  | tooDeep (depth limit : Nat)
deriving DecidableEq, Repr

namespace EvalError

def message : EvalError → String
  | undefinedVariable name => s!"undefined variable: {name}"
  | divisionByZero op => s!"division by zero in '{op.symbol}'"
  | tooDeep depth limit => s!"evaluation stack overflow: depth {depth} exceeds maximum of {limit}"

/-- Whether the error is a fault of the program and not a limit that was hit. -/
def isRecoverable : EvalError → Bool
  | undefinedVariable _ => true
  | divisionByZero _ => true
  | tooDeep _ _ => false

end EvalError

/-- The value of an operator. Arithmetic wraps around, division rounds toward zero, and a comparison that holds
is one. Only a zero divisor has no value. -/
def BinaryOp.apply (op : BinaryOp) (left right : Int64) : Except EvalError Int64 :=
  match op with
  | add => .ok (left + right)
  | sub => .ok (left - right)
  | mul => .ok (left * right)
  | div => if right = 0 then .error (.divisionByZero div) else .ok (left / right)
  | rem => if right = 0 then .error (.divisionByZero rem) else .ok (left % right)
  | eq => .ok (left == right).toInt64
  | ne => .ok (left != right).toInt64
  | ge => .ok (decide (left ≥ right)).toInt64
  | gt => .ok (decide (left > right)).toInt64
  | le => .ok (decide (left ≤ right)).toInt64
  | lt => .ok (decide (left < right)).toInt64

/-- Only a division or a remainder fails, and only by a zero divisor. -/
theorem BinaryOp.apply_eq_error_iff {op : BinaryOp} {left right : Int64} {error : EvalError} :
    op.apply left right = .error error ↔
      (op = div ∨ op = rem) ∧ right = 0 ∧ error = .divisionByZero op := by
  cases op with
  | div => by_cases zero : right = 0 <;> simp [apply, zero, eq_comm]
  | rem => by_cases zero : right = 0 <;> simp [apply, zero, eq_comm]
  | _ => simp [apply]

def UnaryOp.apply (op : UnaryOp) (value : Int64) : Int64 :=
  match op with
  | neg => -value
  | not => (value == 0).toInt64

/-- The value of a logic operator, where its left operand decides it. -/
def LogicOp.decided? (op : LogicOp) (left : Int64) : Option Int64 :=
  match op with
  | and => if left = 0 then some 0 else none
  | or => if left = 0 then none else some 1

end Abacus
