import Abacus.Evaluator.Direct

set_option autoImplicit false

namespace Abacus

variable {σ α β : Type}

/-- How far below an operator evaluation goes in the left operand, which opens `depth` levels below its own. A chain
stays at the level of the operator, and anything else starts one level below it. -/
def Expr.leadDepth (left : Expr) (depth : Nat) : Nat :=
  if left.isChained then depth else depth + 1

/-- The levels below its own that the evaluation of an expression may open. -/
def Expr.evalDepth : Expr → Nat
  | number _ => 0
  | name _ => 0
  | unary _ operand => operand.evalDepth + 1
  | paren inner => inner.evalDepth + 1
  | binary _ left right => max (left.leadDepth left.evalDepth) (right.evalDepth + 1)
  | logic _ left right => max (left.leadDepth left.evalDepth) (right.evalDepth + 1)
  | member value _ => value.leadDepth value.evalDepth
  | ternary condition yes no =>
    max (condition.evalDepth + 1) (max (yes.evalDepth + 1) (no.evalDepth + 1))

theorem BinaryOp.isRecoverable_of_apply {op : BinaryOp} {left right : Int64} {error : EvalError}
    (failed : op.apply left right = .error error) : error.isRecoverable = true := by
  obtain ⟨-, -, rfl⟩ := apply_eq_error_iff.mp failed
  rfl

namespace Evaluator

/-- An action that goes no deeper than `reach` fails by a fault of the program, or at the limit, if that lies no
deeper either. -/
def Reaches (evaluator : Evaluator σ) (reach : Nat) (action : WorldAction σ α) : Prop :=
  ∀ world error after, action world = .error error after →
    error.isRecoverable = true ∨
      error = .tooDeep evaluator.options.depthLimit evaluator.options.depthLimit ∧
        evaluator.options.depthLimit ≤ reach

namespace Reaches

variable {evaluator : Evaluator σ} {reach depth : Nat}

theorem pure (value : α) : evaluator.Reaches reach (Pure.pure value) := by
  intro world error after failed
  cases failed

theorem mono {more : Nat} {action : WorldAction σ α} (reaches : evaluator.Reaches reach action)
    (order : reach ≤ more) : evaluator.Reaches more action := by
  intro world error after failed
  rcases reaches world error after failed with fault | ⟨atLimit, below⟩
  · exact Or.inl fault
  · exact Or.inr ⟨atLimit, Nat.le_trans below order⟩

theorem bind {first : WorldAction σ α} {next : α → WorldAction σ β}
    (head : evaluator.Reaches reach first) (tail : ∀ value, evaluator.Reaches reach (next value)) :
    evaluator.Reaches reach (first >>= next) := by
  intro world error after failed
  simp only [Bind.bind, EStateM.bind] at failed
  cases came : first world with
  | ok value between =>
      rw [came] at failed
      exact tail value between error after failed
  | error fault between =>
      rw [came] at failed
      cases failed
      exact head world error after came

theorem apply (op : BinaryOp) (left right : Int64) :
    evaluator.Reaches reach (ofExcept (op.apply left right)) := by
  intro world error after failed
  cases came : op.apply left right with
  | ok value =>
      rw [came] at failed
      cases failed
  | error fault =>
      rw [came] at failed
      cases failed
      exact Or.inl (BinaryOp.isRecoverable_of_apply came)

theorem consult (name : String) : evaluator.Reaches reach (evaluator.consult name) := by
  intro world error after failed
  unfold Evaluator.consult at failed
  split at failed
  · cases failed
  · cases failed

theorem worldBind (name : String) (value : Int64) :
    evaluator.Reaches reach (World.bind name value) := by
  intro world error after failed
  cases failed

theorem lookup (name : String) : evaluator.Reaches reach (evaluator.lookup name) := by
  unfold Evaluator.lookup
  have environment : evaluator.Reaches reach (get : WorldAction σ (World σ)) := by
    intro world error after failed
    cases failed
  refine environment.bind fun world => ?_
  split
  · exact pure _
  · refine (consult name).bind fun answer => ?_
    split
    · split
      · exact (worldBind name _).bind fun _ => pure _
      · exact pure _
    · intro world error after failed
      cases failed
      exact Or.inl rfl

/-- A check at a depth that the limit allows, or at the limit, fails only at the limit. -/
theorem within {action : WorldAction σ α} (room : depth ≤ evaluator.options.depthLimit)
    (below : depth ≤ reach)
    (inside : depth < evaluator.options.depthLimit → evaluator.Reaches reach action) :
    evaluator.Reaches reach (evaluator.within depth action) := by
  by_cases open_ : depth < evaluator.options.depthLimit
  · rw [Evaluator.within, if_pos open_]
    exact inside open_
  · rw [Evaluator.within, if_neg open_]
    intro world error after failed
    have atLimit : depth = evaluator.options.depthLimit := by omega
    cases failed
    rw [atLimit] at below ⊢
    exact Or.inr ⟨rfl, below⟩

end Reaches

variable {evaluator : Evaluator σ} {depth : Nat}

def InPlaceReaches (evaluator : Evaluator σ) (e : Expr) : Prop :=
  ∀ depth, depth < evaluator.options.depthLimit →
    evaluator.Reaches (depth + e.evalDepth) (evaluator.inPlace depth e)

theorem InPlaceReaches.operand {e : Expr} {reach : Nat} (reaches : evaluator.InPlaceReaches e)
    (room : depth < evaluator.options.depthLimit) (below : depth + 1 + e.evalDepth ≤ reach) :
    evaluator.Reaches reach (evaluator.within (depth + 1) (evaluator.inPlace (depth + 1) e)) :=
  Reaches.within room (by omega) fun open_ => (reaches (depth + 1) open_).mono below

theorem InPlaceReaches.leading {left : Expr} {reach : Nat} (reaches : evaluator.InPlaceReaches left)
    (room : depth < evaluator.options.depthLimit)
    (below : depth + left.leadDepth left.evalDepth ≤ reach) :
    evaluator.Reaches reach (evaluator.leading depth left (evaluator.inPlace · left)) := by
  unfold Expr.leadDepth at below
  unfold Evaluator.leading
  split
  · rename_i chained
    rw [if_pos chained] at below
    exact (reaches depth room).mono below
  · rename_i apart
    rw [if_neg apart] at below
    exact reaches.operand room (by omega)

theorem inPlace_reaches (evaluator : Evaluator σ) (e : Expr) : evaluator.InPlaceReaches e := by
  induction e with
  | number value => exact fun _ _ => .pure value
  | name text => exact fun _ _ => .lookup text
  | unary op operand ih =>
      intro depth room
      exact (ih.operand room (by simp only [Expr.evalDepth]; omega)).bind fun _ => .pure _
  | paren inner ih =>
      intro depth room
      exact ih.operand room (by simp only [Expr.evalDepth]; omega)
  | binary op left right ihLeft ihRight =>
      intro depth room
      refine (ihLeft.leading room (by simp only [Expr.evalDepth]; omega)).bind fun _ => ?_
      refine (ihRight.operand room (by simp only [Expr.evalDepth]; omega)).bind fun _ => ?_
      exact .apply op _ _
  | logic op left right ihLeft ihRight =>
      intro depth room
      have first := ihLeft.leading room
        (show depth + _ ≤ depth + (Expr.logic op left right).evalDepth by
          simp only [Expr.evalDepth]
          omega)
      have second := ihRight.operand room
        (show depth + 1 + _ ≤ depth + (Expr.logic op left right).evalDepth by
          simp only [Expr.evalDepth]
          omega)
      cases op with
      | and =>
          refine first.bind fun _ => ?_
          split
          · exact .pure _
          · exact second.bind fun _ => .pure _
      | or =>
          refine first.bind fun _ => ?_
          split
          · exact .pure _
          · exact second.bind fun _ => .pure _
  | member value set ih =>
      intro depth room
      exact (ih.leading room (by simp only [Expr.evalDepth]; omega)).bind fun _ => .pure _
  | ternary condition yes no ihCondition ihYes ihNo =>
      intro depth room
      refine (ihCondition.operand room (by simp only [Expr.evalDepth]; omega)).bind fun _ => ?_
      split
      · exact ihYes.operand room (by simp only [Expr.evalDepth]; omega)
      · exact ihNo.operand room (by simp only [Expr.evalDepth]; omega)

/-- Direct evaluation goes as deep as the tree reaches. -/
theorem direct_reaches (evaluator : Evaluator σ) (e : Expr)
    (room : depth ≤ evaluator.options.depthLimit) :
    evaluator.Reaches (depth + e.evalDepth) (evaluator.direct depth e) :=
  Reaches.within room (Nat.le_add_right _ _) (evaluator.inPlace_reaches e depth)

end Evaluator

end Abacus
