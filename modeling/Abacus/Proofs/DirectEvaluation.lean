import Abacus.Engine
import Abacus.Proofs.EvaluationDepth

set_option autoImplicit false

namespace Abacus

variable {σ α : Type}

/-- Agreement at the outermost level is equality of what a new machine does to the world. -/
theorem Action.Agrees.start {action : Action σ α} {plain : WorldAction σ α}
    (agrees : Action.Agrees 0 action plain) : Machine.start action = plain := by
  funext world
  have same : action { world with } = Machine.lift plain { world with } := agrees world
  simp only [Machine.start, same, Machine.lift]
  cases plain world <;> rfl

namespace Evaluator

theorem start_eval (evaluator : Evaluator σ) (e : Expr) :
    Machine.start (evaluator.eval e) = evaluator.direct 0 e :=
  (evaluator.eval_agrees e 0).start

def executeDirect (evaluator : Evaluator σ) : Statement → WorldAction σ Outcome
  | .expression e => return .value (← evaluator.direct 0 e)
  | .assignment name e => do
    let value ← evaluator.direct 0 e
    World.bind name value
    return .assigned name value

theorem execute_agrees (evaluator : Evaluator σ) (statement : Statement) :
    Action.Agrees 0 (evaluator.execute statement) (evaluator.executeDirect statement) := by
  cases statement with
  | expression e =>
      have value := evaluator.eval_agrees e 0
      exact value.bind fun _ => .pure _
  | assignment name e =>
      have value := evaluator.eval_agrees e 0
      refine value.bind fun _ => ?_
      exact (Action.Agrees.lift _).bind fun _ => .pure _

theorem start_execute (evaluator : Evaluator σ) (statement : Statement) :
    Machine.start (evaluator.execute statement) = evaluator.executeDirect statement :=
  (evaluator.execute_agrees statement).start

theorem executeDirect_reaches (evaluator : Evaluator σ) (statement : Statement) :
    evaluator.Reaches statement.expr.evalDepth (evaluator.executeDirect statement) := by
  cases statement with
  | expression e =>
      have value := evaluator.direct_reaches e (Nat.zero_le _)
      rw [Nat.zero_add] at value
      exact value.bind fun _ => .pure _
  | assignment name e =>
      have value := evaluator.direct_reaches e (Nat.zero_le _)
      rw [Nat.zero_add] at value
      refine value.bind fun _ => ?_
      exact (Reaches.worldBind name _).bind fun _ => .pure _

/-- Evaluating through chains does to every world what direct recursion does. Where that meets the limit on depth,
it meets it at the first level that is not allowed, which is the limit itself. -/
theorem eval_refines_direct (evaluator : Evaluator σ) (e : Expr) :
    Machine.start (evaluator.eval e) = evaluator.direct 0 e ∧
    ∀ (world : World σ) (depth limit : Nat) (after : World σ),
      Machine.start (evaluator.eval e) world = .error (.tooDeep depth limit) after →
        depth = evaluator.options.depthLimit ∧ limit = evaluator.options.depthLimit := by
  refine ⟨evaluator.start_eval e, ?_⟩
  intro world depth limit after failed
  rw [start_eval] at failed
  have reaches := evaluator.direct_reaches e (Nat.zero_le _) world _ after failed
  rcases reaches with fault | ⟨atLimit, -⟩
  · cases fault
  · cases atLimit
    exact ⟨rfl, rfl⟩

/-- The left operand of the outer sum counts for no level; the number in parentheses is one too deep. -/
theorem eval_refines_direct_sum :
    ∃ (depth limit : Nat) (after : World Unit),
      Machine.start (Evaluator.eval ⟨{ depthLimit := 2 }, none⟩ (.binary .add
        (.binary .add (.number 1) (.name "x")) (.paren (.number 3))))
        ⟨(∅ : Environment).insert "x" 2, (), []⟩ = .error (.tooDeep depth limit) after ∧
      depth = 2 ∧ limit = 2 := by
  have refines := eval_refines_direct (⟨{ depthLimit := 2 }, none⟩ : Evaluator Unit)
    (.binary .add (.binary .add (.number 1) (.name "x")) (.paren (.number 3)))
  have failed : Machine.start (Evaluator.eval ⟨{ depthLimit := 2 }, none⟩ (.binary .add
        (.binary .add (.number 1) (.name "x")) (.paren (.number 3))))
      (⟨(∅ : Environment).insert "x" 2, (), []⟩ : World Unit) =
        .error (.tooDeep 2 2) ⟨(∅ : Environment).insert "x" 2, (), []⟩ := by
    rw [refines.1]
    rfl
  exact ⟨2, 2, _, failed, refines.2 _ 2 2 _ failed⟩

end Evaluator

namespace Engine

/-- A run that fails fails with the error of one of its statements. -/
theorem statement_of_runFrom {engine : Engine σ} {program : Program} {index : Nat} {last : Int64}
    {world : World σ} {error : EngineError} {machine : Machine σ}
    (failed : engine.runFrom index last program { world with depth := 0 } = .error error machine) :
    ∃ statement ∈ program, ∃ place fault before after,
      error = .evaluation place fault ∧
        engine.evaluator.executeDirect statement before = .error fault after := by
  induction program generalizing index last world with
  | nil => cases failed
  | cons statement program ih =>
      have head := engine.evaluator.execute_agrees statement world
      unfold runFrom at failed
      rw [head] at failed
      unfold Machine.lift at failed
      cases came : engine.evaluator.executeDirect statement world with
      | ok outcome after =>
          simp only [came] at failed
          obtain ⟨later, member, found⟩ := ih failed
          exact ⟨later, List.mem_cons_of_mem _ member, found⟩
      | error fault after =>
          simp only [came] at failed
          cases failed
          exact ⟨statement, List.mem_cons_self, index, fault, world, after, rfl, came⟩

end Engine

def World.left {ε α : Type} : EStateM.Result ε (World σ) α → World σ
  | .ok _ world => world
  | .error _ world => world

def Statement.outcome (result : Int64) : Statement → Outcome
  | expression _ => .value result
  | assignment name _ => .assigned name result

def Outcome.settle (world : World σ) : Outcome → World σ
  | value _ => world
  | assigned name v => { world with environment := world.environment.insert name v }

/-- A statement evaluates its expression, and then it only settles the outcome. -/
theorem Evaluator.executeDirect_eq (evaluator : Evaluator σ) (statement : Statement)
    (world : World σ) :
    evaluator.executeDirect statement world =
      match evaluator.direct 0 statement.expr world with
      | .ok value after => .ok (statement.outcome value) ((statement.outcome value).settle after)
      | .error error after => .error error after := by
  cases statement with
  | expression e =>
      simp only [executeDirect, bind, EStateM.bind, Statement.expr]
      cases evaluator.direct 0 e world <;> rfl
  | assignment name e =>
      simp only [executeDirect, bind, EStateM.bind, Statement.expr]
      cases evaluator.direct 0 e world <;> rfl

namespace Evaluator

variable {evaluator : Evaluator σ} {statement : Statement} {world after : World σ}

theorem direct_of_executeDirect_ok {outcome : Outcome}
    (came : evaluator.executeDirect statement world = .ok outcome after) :
    ∃ value between, evaluator.direct 0 statement.expr world = .ok value between ∧
      outcome = statement.outcome value ∧ after = outcome.settle between := by
  rw [executeDirect_eq] at came
  cases found : evaluator.direct 0 statement.expr world with
  | ok value between =>
      rw [found] at came
      cases came
      exact ⟨value, between, rfl, rfl, rfl⟩
  | error error between =>
      rw [found] at came
      cases came

theorem direct_of_executeDirect_error {error : EvalError}
    (came : evaluator.executeDirect statement world = .error error after) :
    evaluator.direct 0 statement.expr world = .error error after := by
  rw [executeDirect_eq] at came
  cases found : evaluator.direct 0 statement.expr world with
  | ok value between =>
      rw [found] at came
      cases came
  | error error between =>
      rw [found] at came
      cases came
      rfl

end Evaluator

namespace Engine

/-- Runs statements by direct recursion, the first of which has the given index. The value is that of the last one, or
`last` if there is none. -/
def runDirect (engine : Engine σ) (index : Nat) (last : Int64) :
    Program → EStateM EngineError (World σ) Int64
  | [], world => .ok last world
  | statement :: rest, world =>
    match engine.evaluator.executeDirect statement world with
    | .ok outcome after => engine.runDirect (index + 1) outcome.result rest after
    | .error error after => .error (.evaluation index error) after

section Steps

variable {engine : Engine σ} {statement : Statement} {rest : Program} {index : Nat} {last : Int64}
  {world after : World σ}

theorem runDirect_of_ok {outcome : Outcome}
    (came : engine.evaluator.executeDirect statement world = .ok outcome after) :
    engine.runDirect index last (statement :: rest) world =
      engine.runDirect (index + 1) outcome.result rest after := by
  simp only [runDirect, came]

theorem runDirect_of_error {error : EvalError}
    (came : engine.evaluator.executeDirect statement world = .error error after) :
    engine.runDirect index last (statement :: rest) world =
      .error (.evaluation index error) after := by
  simp only [runDirect, came]

end Steps

/-- A machine at the outermost level does to its world what direct recursion does. -/
theorem start_runFrom (engine : Engine σ) (index : Nat) (last : Int64) (program : Program) :
    Machine.start (engine.runFrom index last program) = engine.runDirect index last program := by
  funext world
  induction program generalizing index last world with
  | nil => rfl
  | cons statement rest ih =>
      have same := engine.evaluator.execute_agrees statement world
      simp only [Machine.start, runFrom, runDirect, same, Machine.lift]
      cases engine.evaluator.executeDirect statement world with
      | ok outcome after => exact ih (index + 1) outcome.result after
      | error error after => rfl

theorem run_eq_runDirect (engine : Engine σ) (program : Program) :
    engine.run program = engine.runDirect 0 0 program :=
  engine.start_runFrom 0 0 program

theorem eval_of_parse {engine : Engine σ} {source : String} {program : Program}
    (parsed : engine.parse source = .ok program) : engine.eval source = engine.run program := by
  simp only [eval, parsed]

theorem eval_of_parse_error {engine : Engine σ} {source : String} {error : ParseError}
    (failed : engine.parse source = .error error) :
    engine.eval source = throw (.parse error.diagnostic source) := by
  simp only [eval, failed]

end Engine

end Abacus
