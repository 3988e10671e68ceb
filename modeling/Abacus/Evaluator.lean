import Abacus.Reading
import Abacus.World

set_option autoImplicit false

/- Evaluation of expressions and statements. A chain of operators, such as `a + b - c` or `a && b in [1]`, is taken
apart into its leftmost operand and its links and then run from left to right, so that its length costs no
depth. -/
namespace Abacus

variable {σ : Type}

structure EvalOptions where
  /-- How deep evaluation may nest. -/
  depthLimit : Nat := 1000
  /-- Whether values from a resolver are bound in the environment. -/
  memoize : Bool := true
deriving DecidableEq, Repr

structure EngineOptions extends EvalOptions where
  /-- How deep expressions may nest in the text. -/
  nestingLimit : Nat := defaultNestingLimit
deriving DecidableEq, Repr

/-- What evaluates expressions: its options, and a resolver if there is one. -/
structure Evaluator (σ : Type) where
  options : EvalOptions := {}
  resolver : Option (Resolver σ) := none

namespace Evaluator

/-- Puts a name to the resolver, if there is one, and notes the answer. -/
def consult (evaluator : Evaluator σ) (name : String) : WorldAction σ (Option Int64) := fun world =>
  match evaluator.resolver with
  | none => .ok none world
  | some resolver =>
    let (answer, memory) := resolver.resolve name world.memory
    .ok answer.value?
      { world with memory, consultations := ⟨name, answer⟩ :: world.consultations }

/-- The value of a name: from the environment, else from the resolver. -/
def lookup (evaluator : Evaluator σ) (name : String) : WorldAction σ Int64 := do
  match (← get).environment[name]? with
  | some value => return value
  | none =>
    match ← evaluator.consult name with
    | some value =>
      if evaluator.options.memoize then World.bind name value
      return value
    | none => throw (.undefinedVariable name)

end Evaluator

inductive Link where
  | binary (op : BinaryOp) (right : Expr)
  | logic (op : LogicOp) (right : Expr)
  | member (set : List Int64)
deriving DecidableEq, Repr

namespace Link

def size : Link → Nat
  | binary _ right => right.size + 1
  | logic _ right => right.size + 1
  | member _ => 1

def totalSize : List Link → Nat
  | [] => 0
  | link :: rest => link.size + totalSize rest

end Link

/-- A chain of operators: its leftmost operand, and its links from left to right. -/
structure Chain where
  first : Expr
  links : List Link
deriving DecidableEq, Repr

namespace Chain

/-- Takes the left spine of an expression apart, in front of links that are known already. -/
def ofExpr : Expr → List Link → Chain
  | .binary op left right, links => ofExpr left (.binary op right :: links)
  | .logic op left right, links => ofExpr left (.logic op right :: links)
  | .member value set, links => ofExpr value (.member set :: links)
  | first, links => ⟨first, links⟩

/-- Taking an expression apart neither adds nor loses nodes. -/
theorem size_ofExpr (e : Expr) (links : List Link) :
    (ofExpr e links).first.size + Link.totalSize (ofExpr e links).links =
      e.size + Link.totalSize links := by
  induction e generalizing links with
  | binary op left right ih _ =>
      simp only [ofExpr, ih, Link.totalSize, Link.size, Expr.size]
      omega
  | logic op left right ih _ =>
      simp only [ofExpr, ih, Link.totalSize, Link.size, Expr.size]
      omega
  | member value set ih =>
      simp only [ofExpr, ih, Link.totalSize, Link.size, Expr.size]
      omega
  | _ => rfl

theorem size_first_le (e : Expr) (links : List Link) : (ofExpr e links).first.size ≤ e.size := by
  induction e generalizing links with
  | binary op left right ih _ =>
      have := ih (.binary op right :: links)
      simp only [ofExpr, Expr.size]
      omega
  | logic op left right ih _ =>
      have := ih (.logic op right :: links)
      simp only [ofExpr, Expr.size]
      omega
  | member value set ih =>
      have := ih (.member set :: links)
      simp only [ofExpr, Expr.size]
      omega
  | _ => exact Nat.le_refl _

theorem totalSize_links_lt (e : Expr) (links : List Link) :
    Link.totalSize (ofExpr e links).links < e.size + Link.totalSize links := by
  have whole := size_ofExpr e links
  have some := (ofExpr e links).first.size_pos
  omega

end Chain

inductive Outcome where
  | value (value : Int64)
  | assigned (name : String) (value : Int64)
deriving DecidableEq, Repr

namespace Outcome

def result : Outcome → Int64
  | value v => v
  | assigned _ v => v

def text : Outcome → String
  | value v => toString v
  | assigned name v => s!"Assign {v} to {name}"

end Outcome

namespace Evaluator

/-- Runs an action one level deeper, and comes back to the level it started from whether the action succeeds or
fails. At the limit nothing is run. -/
def nested {α : Type} (evaluator : Evaluator σ) (action : Action σ α) : Action σ α :=
  fun machine =>
    if machine.depth < evaluator.options.depthLimit then
      match action { machine with depth := machine.depth + 1 } with
      | .ok value after => .ok value { after with depth := after.depth - 1 }
      | .error error after => .error error { after with depth := after.depth - 1 }
    else .error (.tooDeep machine.depth evaluator.options.depthLimit) machine

mutual

/-- Evaluates an expression, one level deeper than where evaluation stands. -/
def eval (evaluator : Evaluator σ) (e : Expr) : Action σ Int64 :=
  evaluator.nested (evaluator.evalInside e)
termination_by 2 * e.size + 1

/-- Evaluates an expression at the level where evaluation stands. -/
def evalInside (evaluator : Evaluator σ) : Expr → Action σ Int64
  | .number value => return value
  | .name text => Machine.lift (evaluator.lookup text)
  | .unary op operand => return op.apply (← evaluator.eval operand)
  | .paren inner => evaluator.eval inner
  | .binary op left right => do
    let chain := Chain.ofExpr left [.binary op right]
    evaluator.evalLinks (← evaluator.eval chain.first) chain.links
  | .logic op left right => do
    let chain := Chain.ofExpr left [.logic op right]
    evaluator.evalLinks (← evaluator.eval chain.first) chain.links
  | .member value set => do
    let chain := Chain.ofExpr value [.member set]
    evaluator.evalLinks (← evaluator.eval chain.first) chain.links
  | .ternary condition yes no => do
    if (← evaluator.eval condition) ≠ 0 then evaluator.eval yes else evaluator.eval no
termination_by e => 2 * e.size
decreasing_by
  all_goals simp only [Expr.size]
  any_goals omega
  · have := Chain.size_first_le left [.binary op right]
    omega
  · have := Chain.totalSize_links_lt left [.binary op right]
    simp only [Link.totalSize, Link.size] at this
    omega
  · have := Chain.size_first_le left [.logic op right]
    omega
  · have := Chain.totalSize_links_lt left [.logic op right]
    simp only [Link.totalSize, Link.size] at this
    omega
  · have := Chain.size_first_le value [.member set]
    omega
  · have := Chain.totalSize_links_lt value [.member set]
    simp only [Link.totalSize, Link.size] at this
    omega

/-- Carries the value of a chain so far through the links that follow. -/
def evalLinks (evaluator : Evaluator σ) (left : Int64) : List Link → Action σ Int64
  | [] => return left
  | .binary op right :: rest => do
    let value ← ofExcept (op.apply left (← evaluator.eval right))
    evaluator.evalLinks value rest
  | .logic op right :: rest =>
    match op.decided? left with
    | some value => evaluator.evalLinks value rest
    | none => do
      let value ← evaluator.eval right
      evaluator.evalLinks (value != 0).toInt64 rest
  | .member set :: rest => evaluator.evalLinks (set.contains left).toInt64 rest
termination_by links => 2 * Link.totalSize links
decreasing_by all_goals simp only [Link.totalSize, Link.size]; omega

end

/-- Runs a statement. An assignment binds its name once its value is known. -/
def execute (evaluator : Evaluator σ) : Statement → Action σ Outcome
  | .expression e => return .value (← evaluator.eval e)
  | .assignment name e => do
    let value ← evaluator.eval e
    Machine.lift (World.bind name value)
    return .assigned name value

end Evaluator

end Abacus
