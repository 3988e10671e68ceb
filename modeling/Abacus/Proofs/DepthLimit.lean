import Abacus.Proofs.DepthBound

set_option autoImplicit false

namespace Abacus

variable {σ α β : Type}

namespace Evaluator

variable {evaluator : Evaluator σ} {depth : Nat}

def Stops (evaluator : Evaluator σ) (action : WorldAction σ α) : Prop :=
  ∀ world, ∃ after, action world =
    .error (.tooDeep evaluator.options.depthLimit evaluator.options.depthLimit) after

namespace Stops

theorem bind {first : WorldAction σ α} (stops : evaluator.Stops first)
    (next : α → WorldAction σ β) : evaluator.Stops (first >>= next) := by
  intro world
  obtain ⟨after, failed⟩ := stops world
  refine ⟨after, ?_⟩
  simp only [Bind.bind, EStateM.bind, failed]

theorem within {action : WorldAction σ α} (room : depth ≤ evaluator.options.depthLimit)
    (inside : depth < evaluator.options.depthLimit → evaluator.Stops action) :
    evaluator.Stops (evaluator.within depth action) := by
  by_cases open_ : depth < evaluator.options.depthLimit
  · rw [Evaluator.within, if_pos open_]
    exact inside open_
  · have atLimit : depth = evaluator.options.depthLimit := by omega
    rw [Evaluator.within, if_neg open_, atLimit]
    exact fun world => ⟨world, rfl⟩

/-- An action after a left operand that is a number stops where it does by itself. -/
theorem after_number {value : Int64} {next : Int64 → WorldAction σ α}
    (room : depth < evaluator.options.depthLimit) (stops : evaluator.Stops (next value)) :
    evaluator.Stops (do
      let first ← evaluator.leading depth (.number value) (evaluator.inPlace · (.number value))
      next first) := by
  by_cases open_ : depth + 1 < evaluator.options.depthLimit
  · have found : evaluator.leading depth (.number value) (evaluator.inPlace · (.number value)) =
        Pure.pure value := if_pos open_
    rw [found, pure_bind]
    exact stops
  · exact (within room fun inside => absurd inside open_).bind next

end Stops

/-- Evaluating the expression stops at every depth from which it is tried, which one beyond the limit is not. -/
def Overflows (evaluator : Evaluator σ) (depth : Nat) (e : Expr) : Prop :=
  depth ≤ evaluator.options.depthLimit → evaluator.Stops (evaluator.direct depth e)

namespace Overflows

variable {e : Expr} {value : Int64}

theorem atLimit (atLimit : evaluator.options.depthLimit ≤ depth) : evaluator.Overflows depth e :=
  fun room => Stops.within room fun inside => absurd inside (Nat.not_lt_of_le atLimit)

theorem paren (below : evaluator.Overflows (depth + 1) e) : evaluator.Overflows depth (.paren e) :=
  fun room => Stops.within room fun inside => below inside

theorem binary {op : BinaryOp} (below : evaluator.Overflows (depth + 1) e) :
    evaluator.Overflows depth (.binary op (.number value) e) :=
  fun room => Stops.within room fun inside => .after_number inside ((below inside).bind _)

theorem and (holds : value ≠ 0) (below : evaluator.Overflows (depth + 1) e) :
    evaluator.Overflows depth (.logic .and (.number value) e) := by
  intro room
  refine Stops.within room fun inside => .after_number inside ?_
  rw [if_neg holds]
  exact (below inside).bind _

theorem or (below : evaluator.Overflows (depth + 1) e) :
    evaluator.Overflows depth (.logic .or (.number 0) e) := by
  intro room
  refine Stops.within room fun inside => .after_number inside ?_
  exact (below inside).bind _

theorem member {set : List Int64} (apart : e.isChained = false)
    (below : evaluator.Overflows (depth + 1) e) : evaluator.Overflows depth (.member e set) := by
  intro room
  refine Stops.within room fun inside => Stops.bind ?_ _
  rw [Evaluator.leading, if_neg (Bool.eq_false_iff.mp apart)]
  exact below inside

theorem ternary {yes no : Expr} (below : evaluator.Overflows (depth + 1) e) :
    evaluator.Overflows depth (.ternary e yes no) :=
  fun room => Stops.within room fun inside => (below inside).bind _

end Overflows

end Evaluator

namespace Expr

/-- An operator of each level around an operand, each to the right of the one that binds looser. -/
def ladder (operand : Expr) : Expr :=
  .logic .or (.number 0) <| .logic .and (.number 1) <| .binary .eq (.number 1) <|
    .binary .lt (.number 1) <| .binary .add (.number 1) <| .binary .mul (.number 1) <|
      .member operand [1]

/-- The tree of a nesting whose evaluation goes deepest. -/
def steepest : Nat → Expr
  | 0 => ladder (.number 1)
  | n + 1 => .ternary (ladder (.paren (steepest n))) (.number 1) (.number 1)

theorem isCanonical_after_one (op : BinaryOp) {right : Expr} (canonical : right.IsCanonical)
    (tight : right.looseness < op.level.height + 2) : (binary op (number 1) right).IsCanonical :=
  ⟨Nat.zero_le _, tight, by decide, canonical⟩

theorem isCanonical_ladder {operand : Expr} (tight : operand.looseness ≤ 1)
    (canonical : operand.IsCanonical) : (ladder operand).IsCanonical := by
  have nonneg : ∀ number ∈ [(1 : Int64)], 0 ≤ number := List.forall_mem_singleton.mpr (by decide)
  have tested : (member operand [1]).IsCanonical := ⟨tight, by decide, nonneg, canonical⟩
  have product := isCanonical_after_one .mul tested (show 1 < 3 by decide)
  have sum := isCanonical_after_one .add product (show 3 < 4 by decide)
  have relation := isCanonical_after_one .lt sum (show 4 < 5 by decide)
  have equation := isCanonical_after_one .eq relation (show 5 < 6 by decide)
  refine ⟨Nat.zero_le 8, show 7 < 8 by decide, by decide, ?_⟩
  exact ⟨Nat.zero_le 7, show 6 < 7 by decide, by decide, equation⟩

theorem isCanonical_steepest (n : Nat) : (steepest n).IsCanonical := by
  induction n with
  | zero => exact isCanonical_ladder (Nat.zero_le 1) (by decide : (number 1).IsCanonical)
  | succ n ih =>
      have condition : (ladder (.paren (steepest n))).IsCanonical :=
        isCanonical_ladder (Nat.zero_le 1) ih
      exact ⟨show 8 < 9 by decide, condition, by decide, by decide⟩

theorem nesting_ladder (operand : Expr) : (ladder operand).nesting = operand.nesting := by
  simp only [ladder, nesting, Nat.zero_max]

theorem nesting_steepest (n : Nat) : (steepest n).nesting = n := by
  induction n with
  | zero => rfl
  | succ n ih =>
      simp only [steepest, nesting, nesting_ladder, ih]
      omega

end Expr

namespace Evaluator

variable {evaluator : Evaluator σ} {depth : Nat}

theorem overflows_ladder {operand : Expr} (apart : operand.isChained = false)
    (below : evaluator.Overflows (depth + 7) operand) :
    evaluator.Overflows depth operand.ladder :=
  .or (.and (by decide) (.binary (.binary (.binary (.binary (.member apart below))))))

/-- Each level of nesting takes nine levels of evaluation, and the innermost operators take seven. -/
theorem overflows_steepest (n : Nat) (deep : evaluator.options.depthLimit ≤ depth + (9 * n + 7)) :
    evaluator.Overflows depth (Expr.steepest n) := by
  induction n generalizing depth with
  | zero => exact overflows_ladder rfl (.atLimit deep)
  | succ n ih =>
      have inner : evaluator.Overflows (depth + 9) (Expr.steepest n) := ih (by omega)
      exact .ternary (overflows_ladder rfl (.paren inner))

/-- Parsing under a limit bounds the depth of evaluation: no statement that parses meets a limit on depth of nine
levels for each level of nesting, but for one. With the limits that hold where none are given, running a text meets
none at all. The bound is tight: one level less stops a program of every nesting. -/
theorem parse_limit_bounds_depth :
    (∀ (limit : Nat) (source : String) (program : Program), Program.parse limit source = .ok program →
      ∀ (evaluator : Evaluator σ) (world : World σ), 9 * limit - 1 ≤ evaluator.options.depthLimit →
        ∀ statement ∈ program, ∀ (depth bound : Nat) (after : World σ),
          Machine.start (evaluator.execute statement) world ≠ .error (.tooDeep depth bound) after) ∧
    (∀ (resolver : Option (Resolver σ)) (memoize : Bool) (source : String) (world after : World σ)
      (index depth bound : Nat),
        Engine.eval ⟨{ memoize }, resolver⟩ source world ≠
          .error (.evaluation index (.tooDeep depth bound)) after) ∧
    ∀ limit : Nat, 1 ≤ limit → ∃ (source : String) (statement : Statement),
      Program.parse limit source = .ok [statement] ∧
        ∀ evaluator : Evaluator σ, evaluator.options.depthLimit = 9 * limit - 2 → ∀ world : World σ,
          ∃ after, Machine.start (evaluator.execute statement) world =
            .error (.tooDeep (9 * limit - 2) (9 * limit - 2)) after := by
  refine ⟨?_, ?_, ?_⟩
  · intro limit source program parsed evaluator world deep statement member depth bound after failed
    rw [start_execute] at failed
    have fault := Program.isRecoverable_of_parse parsed deep member failed
    cases fault
  · intro resolver memoize source world after index depth bound failed
    have fault := Engine.isRecoverable_of_eval
      (show 9 * defaultNestingLimit - 1 ≤ 1000 by decide) failed
    cases fault
  · intro limit positive
    have canonical : (Statement.expression (Expr.steepest (limit - 1))).IsCanonical limit := by
      have shallow : (Expr.steepest (limit - 1)).nesting < limit := by
        rw [Expr.nesting_steepest]
        omega
      exact ⟨Expr.isCanonical_steepest _, shallow⟩
    refine ⟨Program.text [.expression (Expr.steepest (limit - 1))], _,
      Program.parse_text_of_isCanonical (List.forall_mem_singleton.mpr canonical), ?_⟩
    intro evaluator exact_ world
    have stops : evaluator.Stops (evaluator.direct 0 (Expr.steepest (limit - 1))) :=
      overflows_steepest (limit - 1) (by omega) (Nat.zero_le _)
    rw [start_execute, ← exact_]
    exact stops.bind _ world

/-- Under a limit of two, a product of a sum in parentheses and a negated number meets no limit of seventeen levels; one
of sixteen stops another program. -/
theorem parse_limit_bounds_depth_nested :
    (∃ statement : Statement, Program.parse 2 "(1 + 2) * -3;" = .ok [statement] ∧ statement.nesting = 2 ∧
      ∀ (depth bound : Nat) (after : World Unit),
        Machine.start (Evaluator.execute ⟨{ depthLimit := 17 }, none⟩ statement) ⟨∅, (), []⟩ ≠
          .error (.tooDeep depth bound) after) ∧
    ∃ (source : String) (statement : Statement), Program.parse 2 source = .ok [statement] ∧
      ∃ after, Machine.start (Evaluator.execute ⟨{ depthLimit := 16 }, none⟩ statement)
        (⟨∅, (), []⟩ : World Unit) = .error (.tooDeep 16 16) after := by
  obtain ⟨bounded, -, tight⟩ := parse_limit_bounds_depth (σ := Unit)
  have parsed : Program.parse 2 "(1 + 2) * -3;" = .ok [.expression (.binary .mul
      (.paren (.binary .add (.number 1) (.number 2))) (.unary .neg (.number 3)))] := by
    have canonical : ∀ statement ∈ [Statement.expression (.binary .mul
        (.paren (.binary .add (.number 1) (.number 2))) (.unary .neg (.number 3)))],
          statement.IsCanonical 2 := by decide
    have written : Program.text [.expression (.binary .mul
        (.paren (.binary .add (.number 1) (.number 2))) (.unary .neg (.number 3)))] = "(1 + 2) * -3;" := by
      decide
    rw [← written]
    exact Program.parse_text_of_isCanonical canonical
  have clear := bounded 2 "(1 + 2) * -3;" _ parsed ⟨{ depthLimit := 17 }, none⟩ ⟨∅, (), []⟩ (by decide) _
    List.mem_cons_self
  obtain ⟨source, statement, reads, stops⟩ := tight 2 (by decide)
  exact ⟨⟨_, parsed, rfl, clear⟩, source, statement, reads, stops ⟨{ depthLimit := 16 }, none⟩ rfl _⟩

end Evaluator

end Abacus
