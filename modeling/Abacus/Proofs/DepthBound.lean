import Abacus.Proofs.DirectEvaluation
import Abacus.Proofs.RoundTrip

set_option autoImplicit false

/- How the limit on nesting in a text bounds the depth of evaluation. Between one level of nesting and the next lie at
most nine levels of evaluation, one for each kind of phrase from a ternary down to a parenthesis, and nesting within
a limit leaves the innermost level without a ternary. -/
namespace Abacus

variable {σ : Type}

/-- The levels that an expression of a looseness may open before it reaches a parenthesis. Unary operators open
none beyond those that their nesting pays for. -/
def rungs (looseness : Nat) : Nat := max (looseness - 1) (min looseness 1)

namespace Expr

/-- A depth of at most nine levels for each level of nesting, one less in all if there is any, and the rungs of a
looseness. -/
def FitsRungs (looseness depth nesting : Nat) : Prop :=
  depth + min 1 nesting ≤ 9 * nesting + rungs looseness

/-- What is no chain binds as tightly as a unary operator, or is a ternary. -/
theorem looseness_of_not_isChained {e : Expr} (apart : e.isChained = false) :
    e.looseness = 0 ∨ e.looseness = 2 ∨ e.looseness = 9 := by
  cases e with
  | number => exact Or.inl rfl
  | name => exact Or.inl rfl
  | paren => exact Or.inl rfl
  | unary => exact Or.inr (Or.inl rfl)
  | ternary => exact Or.inr (Or.inr rfl)
  | _ => cases apart

/-- A left operand costs a level only if it binds tighter than all chains. -/
theorem FitsRungs.lead {left : Expr} {looseness : Nat}
    (fits : FitsRungs left.looseness left.evalDepth left.nesting)
    (tight : left.looseness ≤ looseness) (kind : looseness = 1 ∨ 3 ≤ looseness ∧ looseness ≤ 8) :
    FitsRungs looseness (left.leadDepth left.evalDepth) left.nesting := by
  unfold FitsRungs rungs at *
  by_cases chained : left.isChained = true
  · rw [leadDepth, if_pos chained]
    omega
  · have apart := looseness_of_not_isChained (Bool.eq_false_iff.mpr chained)
    rw [leadDepth, if_neg chained]
    omega

/-- A right operand costs a level, and binds tighter than its operator. -/
theorem FitsRungs.operand {right : Expr} {looseness : Nat}
    (fits : FitsRungs right.looseness right.evalDepth right.nesting)
    (tight : right.looseness < looseness) (infixed : 3 ≤ looseness) :
    FitsRungs looseness (right.evalDepth + 1) right.nesting := by
  unfold FitsRungs rungs at *
  omega

theorem FitsRungs.max {looseness first second left right : Nat}
    (fitsFirst : FitsRungs looseness first left) (fitsSecond : FitsRungs looseness second right) :
    FitsRungs looseness (Max.max first second) (Max.max left right) := by
  unfold FitsRungs at *
  omega

/-- All but ternaries bind tighter than a ternary, and a ternary nests its branches. -/
theorem nesting_of_looseness (e : Expr) : e.looseness ≤ 8 ∨ e.looseness = 9 ∧ 1 ≤ e.nesting := by
  cases e with
  | ternary condition yes no =>
      refine Or.inr ⟨rfl, ?_⟩
      rw [nesting]
      omega
  | binary op =>
      have bounds := op.level.height_bounds
      apply Or.inl
      rw [looseness]
      omega
  | logic op =>
      have bounds := op.level.height_bounds
      apply Or.inl
      rw [looseness]
      omega
  | _ =>
      apply Or.inl
      rw [looseness]
      omega

/-- Without nesting there is no ternary, and with it the level saved pays for one. -/
theorem FitsRungs.evalDepth_le {e : Expr} (fits : FitsRungs e.looseness e.evalDepth e.nesting) :
    e.evalDepth ≤ 9 * e.nesting + 7 := by
  have loose := e.nesting_of_looseness
  unfold FitsRungs rungs at fits
  omega

theorem leftLimit_le (op : BinaryOp) : op.leftLimit ≤ op.level.height + 2 := by
  unfold BinaryOp.leftLimit
  split
  · rename_i compares
    have above := (Level.height_of_isComparison compares).1
    omega
  · exact Nat.le_refl _

/-- The depth of evaluation of a canonical tree is bounded by its nesting and its outermost operator. -/
theorem IsCanonical.fitsRungs {e : Expr} (canonical : e.IsCanonical) :
    FitsRungs e.looseness e.evalDepth e.nesting := by
  induction e with
  | number => exact Nat.zero_le _
  | name => exact Nat.zero_le _
  | unary op operand ih =>
      have inside := ih canonical.2
      have tight := canonical.1
      unfold FitsRungs rungs at inside
      simp only [FitsRungs, rungs, looseness, evalDepth, nesting]
      omega
  | paren inner ih =>
      -- the parenthesis is the ninth level below the eight of a ternary inside it
      have inside := (ih canonical).evalDepth_le
      simp only [FitsRungs, rungs, looseness, evalDepth, nesting]
      omega
  | binary op left right ihLeft ihRight =>
      obtain ⟨tightLeft, tightRight, canonicalLeft, canonicalRight⟩ := canonical
      have bounds := op.level.height_bounds
      have fitsLeft : left.looseness ≤ op.level.height + 2 :=
        Nat.le_trans tightLeft (leftLimit_le op)
      have before := (ihLeft canonicalLeft).lead fitsLeft (Or.inr ⟨by omega, by omega⟩)
      have after := (ihRight canonicalRight).operand tightRight (by omega)
      exact before.max after
  | logic op left right ihLeft ihRight =>
      obtain ⟨tightLeft, tightRight, canonicalLeft, canonicalRight⟩ := canonical
      have bounds := op.level.height_bounds
      have before := (ihLeft canonicalLeft).lead tightLeft (Or.inr ⟨by omega, by omega⟩)
      have after := (ihRight canonicalRight).operand tightRight (by omega)
      exact before.max after
  | member value set ih =>
      exact (ih canonical.2.2.2).lead canonical.1 (Or.inl rfl)
  | ternary condition yes no ihCondition ihYes ihNo =>
      obtain ⟨tight, canonicalCondition, canonicalYes, canonicalNo⟩ := canonical
      have insideCondition := ihCondition canonicalCondition
      have insideYes := (ihYes canonicalYes).evalDepth_le
      have insideNo := (ihNo canonicalNo).evalDepth_le
      unfold FitsRungs rungs at insideCondition
      simp only [FitsRungs, rungs, looseness, evalDepth, nesting]
      omega

end Expr

/-- A limit on depth that allows for nine levels within each level of nesting, but for one, is met by no canonical
statement. -/
theorem Statement.IsCanonical.isRecoverable {limit : Nat} {statement : Statement}
    (canonical : statement.IsCanonical limit) {evaluator : Evaluator σ}
    (deep : 9 * limit - 1 ≤ evaluator.options.depthLimit) {world after : World σ}
    {error : EvalError} (failed : evaluator.executeDirect statement world = .error error after) :
    error.isRecoverable = true := by
  have fits : statement.expr.evalDepth ≤ 9 * statement.expr.nesting + 7 := by
    cases statement with
    | expression e => exact canonical.1.fitsRungs.evalDepth_le
    | assignment name e => exact canonical.2.1.fitsRungs.evalDepth_le
  have nested : statement.expr.nesting + 1 ≤ limit := canonical.nesting_le
  rcases evaluator.executeDirect_reaches statement world error after failed with fault | ⟨-, met⟩
  · exact fault
  · omega

/-- Parsing under a limit keeps every statement clear of a limit on depth that allows for it. -/
theorem Program.isRecoverable_of_parse {limit : Nat} {source : String} {program : Program}
    (parsed : parse limit source = .ok program) {evaluator : Evaluator σ}
    (deep : 9 * limit - 1 ≤ evaluator.options.depthLimit) {statement : Statement}
    (member : statement ∈ program) {world after : World σ} {error : EvalError}
    (failed : evaluator.executeDirect statement world = .error error after) :
    error.isRecoverable = true :=
  (isCanonical_of_parse parsed statement member).isRecoverable deep failed

theorem Engine.isRecoverable_of_eval {engine : Engine σ}
    (deep : 9 * engine.options.nestingLimit - 1 ≤ engine.options.depthLimit) {source : String}
    {world after : World σ} {index : Nat} {error : EvalError}
    (failed : engine.eval source world = .error (.evaluation index error) after) :
    error.isRecoverable = true := by
  unfold Engine.eval at failed
  cases parsed : engine.parse source with
  | error fault =>
      rw [parsed] at failed
      cases failed
  | ok program =>
      rw [parsed] at failed
      simp only [run, Machine.start] at failed
      cases ran : engine.runFrom 0 0 program { world with depth := 0 } with
      | ok value machine =>
          rw [ran] at failed
          cases failed
      | error fault machine =>
          rw [ran] at failed
          cases failed
          obtain ⟨statement, member, place, fault, before, after, same, stopped⟩ :=
            statement_of_runFrom ran
          cases same
          exact Program.isRecoverable_of_parse parsed deep member stopped

end Abacus
