import Abacus.Evaluator

set_option autoImplicit false

/- Evaluation by recursion on the tree alone. The depth is an argument and no state: an operand is one
deeper than its operator, but the left operand of an infix operator that is one itself, or a membership test, stays
at the same depth and meets no limit. -/
namespace Abacus

variable {σ α β : Type}

/-- Whether the outermost operator is infix or a membership test, so that its left operand is found along
the left edge of the tree. -/
def Expr.isChained : Expr → Bool
  | binary _ _ _ => true
  | logic _ _ _ => true
  | member _ _ => true
  | _ => false

namespace Evaluator

def within (evaluator : Evaluator σ) (depth : Nat) (action : WorldAction σ α) : WorldAction σ α :=
  if depth < evaluator.options.depthLimit then action
  else throw (.tooDeep depth evaluator.options.depthLimit)

/-- Runs the evaluation of a left operand: at the same depth if it is a chain itself, else one deeper. -/
def leading (evaluator : Evaluator σ) (depth : Nat) (left : Expr)
    (action : Nat → WorldAction σ α) : WorldAction σ α :=
  if left.isChained then action depth else evaluator.within (depth + 1) (action (depth + 1))

/-- Evaluates an expression at a depth that was found to be within the limit. -/
def inPlace (evaluator : Evaluator σ) (depth : Nat) : Expr → WorldAction σ Int64
  | .number value => return value
  | .name text => evaluator.lookup text
  | .unary op operand => do
    let value ← evaluator.within (depth + 1) (evaluator.inPlace (depth + 1) operand)
    return op.apply value
  | .paren inner => evaluator.within (depth + 1) (evaluator.inPlace (depth + 1) inner)
  | .binary op left right => do
    let first ← evaluator.leading depth left (evaluator.inPlace · left)
    let second ← evaluator.within (depth + 1) (evaluator.inPlace (depth + 1) right)
    ofExcept (op.apply first second)
  | .logic .and left right => do
    let first ← evaluator.leading depth left (evaluator.inPlace · left)
    if first = 0 then return 0
    let second ← evaluator.within (depth + 1) (evaluator.inPlace (depth + 1) right)
    return (second != 0).toInt64
  | .logic .or left right => do
    let first ← evaluator.leading depth left (evaluator.inPlace · left)
    if first ≠ 0 then return 1
    let second ← evaluator.within (depth + 1) (evaluator.inPlace (depth + 1) right)
    return (second != 0).toInt64
  | .member value set => do
    let tested ← evaluator.leading depth value (evaluator.inPlace · value)
    return (set.contains tested).toInt64
  | .ternary condition yes no => do
    let chosen ← evaluator.within (depth + 1) (evaluator.inPlace (depth + 1) condition)
    if chosen ≠ 0 then evaluator.within (depth + 1) (evaluator.inPlace (depth + 1) yes)
    else evaluator.within (depth + 1) (evaluator.inPlace (depth + 1) no)

def direct (evaluator : Evaluator σ) (depth : Nat) (e : Expr) : WorldAction σ Int64 :=
  evaluator.within depth (evaluator.inPlace depth e)

end Evaluator

/-- Started at the depth, the action does to a machine what the plain one does to its world, and comes back to
the depth. -/
def Action.Agrees (depth : Nat) (action : Action σ α) (plain : WorldAction σ α) : Prop :=
  ∀ world : World σ, action { world with depth } = Machine.lift plain { world with depth }

namespace Action.Agrees

variable {depth : Nat}

theorem lift (plain : WorldAction σ α) : Agrees depth (Machine.lift plain) plain := fun _ => rfl

theorem pure (value : α) : Agrees (σ := σ) depth (Pure.pure value) (Pure.pure value) := fun _ => rfl

theorem ofExcept (result : Except EvalError α) :
    Agrees (σ := σ) depth (MonadExcept.ofExcept result) (MonadExcept.ofExcept result) := by
  intro _
  cases result <;> rfl

theorem bind {first : Action σ α} {plain : WorldAction σ α} {next : α → Action σ β}
    {plainNext : α → WorldAction σ β} (head : Agrees depth first plain)
    (tail : ∀ value, Agrees depth (next value) (plainNext value)) :
    Agrees depth (first >>= next) (plain >>= plainNext) := by
  intro world
  simp only [Bind.bind, EStateM.bind, head world, Machine.lift]
  cases plain world with
  | ok value after => exact tail value after
  | error error after => rfl

/-- Going one level deeper agrees with checking the depth. -/
theorem nested {evaluator : Evaluator σ} {action : Action σ α} {plain : WorldAction σ α}
    (inside : Agrees (depth + 1) action plain) :
    Agrees depth (evaluator.nested action) (evaluator.within depth plain) := by
  intro world
  by_cases room : depth < evaluator.options.depthLimit
  · simp only [Evaluator.nested, Evaluator.within, if_pos room, inside world, Machine.lift]
    cases plain world <;> rfl
  · simp only [Evaluator.nested, Evaluator.within, if_neg room]
    rfl

end Action.Agrees

namespace Evaluator

variable {depth : Nat}

/-- Carries the value of a chain at a depth through its links, by direct recursion into each right operand. -/
def directLinks (evaluator : Evaluator σ) (depth : Nat) (left : Int64) :
    List Link → WorldAction σ Int64
  | [] => return left
  | .binary op right :: rest => do
    let value ← ofExcept (op.apply left (← evaluator.direct (depth + 1) right))
    evaluator.directLinks depth value rest
  | .logic op right :: rest =>
    match op.decided? left with
    | some value => evaluator.directLinks depth value rest
    | none => do
      let value ← evaluator.direct (depth + 1) right
      evaluator.directLinks depth (value != 0).toInt64 rest
  | .member set :: rest => evaluator.directLinks depth (set.contains left).toInt64 rest

/-- Taking the left spine of an operand apart does not change what it and the links after it come to. -/
theorem directLinks_ofExpr (evaluator : Evaluator σ) (e : Expr) (links : List Link) :
    (do
      let chain := Chain.ofExpr e links
      evaluator.directLinks depth (← evaluator.direct (depth + 1) chain.first) chain.links) =
    (do
      evaluator.directLinks depth (← evaluator.leading depth e (evaluator.inPlace · e)) links) := by
  induction e generalizing links with
  | binary op left right ih _ =>
      simp only [Chain.ofExpr, ih]
      simp only [leading, Expr.isChained, inPlace, if_true, bind_assoc, directLinks, direct]
  | logic op left right ih _ =>
      cases op <;>
      · simp only [Chain.ofExpr, ih]
        simp only [leading, Expr.isChained, inPlace, if_true, bind_assoc]
        refine bind_congr fun first => ?_
        by_cases zero : first = 0 <;> simp [zero, directLinks, LogicOp.decided?, direct]
  | member value set ih =>
      simp only [Chain.ofExpr, ih]
      simp only [leading, Expr.isChained, inPlace, if_true, bind_assoc, directLinks, pure_bind]
  | _ => rfl

/-- A chain comes to the same in place as through its links. -/
theorem inPlace_eq_directLinks (evaluator : Evaluator σ) {e : Expr} (chained : e.isChained = true) :
    evaluator.inPlace depth e = (do
      let chain := Chain.ofExpr e []
      evaluator.directLinks depth (← evaluator.direct (depth + 1) chain.first) chain.links) := by
  rw [directLinks_ofExpr, leading, if_pos chained]
  simp only [directLinks, bind_pure]

theorem agreement (evaluator : Evaluator σ) :
    (∀ e depth, Action.Agrees depth (evaluator.eval e) (evaluator.direct depth e)) ∧
    (∀ e depth, Action.Agrees (depth + 1) (evaluator.evalInside e) (evaluator.inPlace depth e)) ∧
    (∀ left links depth, Action.Agrees (depth + 1) (evaluator.evalLinks left links)
      (evaluator.directLinks depth left links)) := by
  refine Evaluator.eval.mutual_induct _ _ _ ?nested ?number ?name ?unary ?paren ?binary ?logic ?member ?ternary
    ?noLink ?binaryLink ?decidedLink ?undecidedLink ?memberLink
  case nested =>
    intro e ih depth
    rw [eval]
    exact (ih depth).nested
  case number =>
    intro value depth
    rw [evalInside]
    exact .pure value
  case name =>
    intro text depth
    rw [evalInside]
    exact .lift _
  case unary =>
    intro op operand ih depth
    rw [evalInside]
    exact (ih _).bind fun _ => .pure _
  case paren =>
    intro inner ih depth
    rw [evalInside]
    exact ih _
  case binary =>
    intro op left right chain first links depth
    rw [evalInside, inPlace_eq_directLinks evaluator rfl]
    exact (first _).bind fun value => links value _
  case logic =>
    intro op left right chain first links depth
    rw [evalInside, inPlace_eq_directLinks evaluator rfl]
    exact (first _).bind fun value => links value _
  case member =>
    intro value set chain first links depth
    rw [evalInside, inPlace_eq_directLinks evaluator rfl]
    exact (first _).bind fun value => links value _
  case ternary =>
    intro condition yes no ihCondition ihYes ihNo depth
    rw [evalInside]
    refine (ihCondition _).bind fun value => ?_
    split
    · exact ihYes _
    · exact ihNo _
  case noLink =>
    intro left depth
    rw [evalLinks]
    exact .pure left
  case binaryLink =>
    intro left op right rest ihRight ihRest depth
    rw [evalLinks, directLinks]
    exact (ihRight _).bind fun _ => (Action.Agrees.ofExcept _).bind fun _ => ihRest _ _
  case decidedLink =>
    intro left op right rest value decided ih depth
    rw [evalLinks, directLinks]
    simp only [decided]
    exact ih _
  case undecidedLink =>
    intro left op right rest undecided ihRight ihRest depth
    rw [evalLinks, directLinks]
    simp only [undecided]
    exact (ihRight _).bind fun _ => ihRest _ _
  case memberLink =>
    intro left set rest ih depth
    rw [evalLinks, directLinks]
    exact ih _

/-- Evaluating through chains agrees with direct recursion at every depth. -/
theorem eval_agrees (evaluator : Evaluator σ) (e : Expr) (depth : Nat) :
    Action.Agrees depth (evaluator.eval e) (evaluator.direct depth e) :=
  evaluator.agreement.1 e depth

end Evaluator

end Abacus
