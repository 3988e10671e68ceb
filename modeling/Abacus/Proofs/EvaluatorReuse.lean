import Abacus.Proofs.ResolverValues

set_option autoImplicit false

namespace Abacus

variable {σ τ α ε : Type}

def World.result : EStateM.Result ε (World σ) α → Except ε α
  | .ok value _ => .ok value
  | .error error _ => .error error

def Machine.left : EStateM.Result ε (Machine σ) α → Machine σ
  | .ok _ machine => machine
  | .error _ machine => machine

/-- An action that agrees with a plain one at a depth comes back to it. -/
theorem Action.Agrees.depth_left {depth : Nat} {action : Action σ α} {plain : WorldAction σ α}
    (agrees : Action.Agrees depth action plain) (world : World σ) :
    (Machine.left (action { world with depth })).depth = depth := by
  rw [agrees world, Machine.lift]
  dsimp only
  cases plain world with
  | ok value after => rfl
  | error error after => rfl

namespace Evaluator

/-- Evaluation comes back to the depth it started at, whether it fails or not. -/
theorem depth_eval (evaluator : Evaluator σ) (e : Expr) (machine : Machine σ) :
    (Machine.left (evaluator.eval e machine)).depth = machine.depth :=
  (evaluator.eval_agrees e machine.depth).depth_left machine.toWorld

theorem depth_execute (evaluator : Evaluator σ) (statement : Statement) (machine : Machine σ) :
    (Machine.left (evaluator.execute statement machine)).depth = machine.depth := by
  have value := evaluator.eval_agrees statement.expr machine.depth
  cases statement with
  | expression e =>
      have whole := value.bind fun result => .pure (Outcome.value result)
      exact whole.depth_left machine.toWorld
  | assignment name e =>
      have whole := value.bind fun result =>
        (Action.Agrees.lift (World.bind name result)).bind fun _ => .pure (Outcome.assigned name result)
      exact whole.depth_left machine.toWorld

/-- Runs every statement with a new machine of its own, going on after errors. -/
def executeApart (evaluator : Evaluator σ) :
    Program → World σ → List (Except EvalError Outcome) × World σ
  | [], world => ([], world)
  | statement :: rest, world =>
    let ended := Machine.start (evaluator.execute statement) world
    let later := evaluator.executeApart rest (World.left ended)
    (World.result ended :: later.1, later.2)

/-- One machine for all statements does what a new one for each does. -/
theorem executeAll_eq (evaluator : Evaluator σ) (program : Program) (world : World σ) :
    evaluator.executeAll program { world with } =
      ((evaluator.executeApart program world).1,
        { (evaluator.executeApart program world).2 with }) := by
  induction program generalizing world with
  | nil => rfl
  | cons statement rest ih =>
      have same : evaluator.execute statement { world with } =
          Machine.lift (evaluator.executeDirect statement) { world with } :=
        evaluator.execute_agrees statement world
      have apart := evaluator.start_execute statement
      simp only [executeAll, executeApart, apart, same, Machine.lift]
      cases evaluator.executeDirect statement world with
      | ok outcome after => simp only [ih after, World.left, World.result]
      | error error after => simp only [ih after, World.left, World.result]

section Steps

variable {evaluator : Evaluator σ} {statement : Statement} {world after : World σ}

theorem executeApart_of_ok {outcome : Outcome}
    (came : evaluator.executeDirect statement world = .ok outcome after) (rest : Program) :
    evaluator.executeApart (statement :: rest) world =
      (.ok outcome :: (evaluator.executeApart rest after).1, (evaluator.executeApart rest after).2) := by
  simp only [executeApart, start_execute, came, World.left, World.result]

theorem executeApart_of_error {error : EvalError}
    (came : evaluator.executeDirect statement world = .error error after) (rest : Program) :
    evaluator.executeApart (statement :: rest) world =
      (.error error :: (evaluator.executeApart rest after).1, (evaluator.executeApart rest after).2) := by
  simp only [executeApart, start_execute, came, World.left, World.result]

/-- A statement that succeeds comes to what its value makes of it. -/
theorem outcome_result_of_ok {outcome : Outcome}
    (came : evaluator.executeDirect statement world = .ok outcome after) :
    statement.outcome outcome.result = outcome := by
  obtain ⟨value, between, -, rfl, -⟩ := direct_of_executeDirect_ok came
  cases statement <;> rfl

end Steps

/-- Where statements come to the same, executing them one after another does. -/
theorem executeApart_relates {first : Evaluator σ} {second : Evaluator τ}
    {related : World σ → World τ → Prop} {program : Program}
    (statements : ∀ statement ∈ program, (Coupling.always related).Relates
      (first.executeDirect statement) (second.executeDirect statement))
    {world : World σ} {other : World τ} (start : related world other) :
    (second.executeApart program other).1 = (first.executeApart program world).1 ∧
      related (first.executeApart program world).2 (second.executeApart program other).2 := by
  induction program generalizing world other with
  | nil => exact ⟨rfl, start⟩
  | cons statement rest ih =>
      obtain ⟨head, tail⟩ := List.forall_mem_cons.mp statements
      have same := head world other start
      simp only [executeApart, start_execute]
      generalize first.executeDirect statement world = left at same
      generalize second.executeDirect statement other = right at same
      cases same with
      | ok kept =>
          obtain ⟨outcomes, worlds⟩ := ih tail kept
          exact ⟨congrArg _ outcomes, worlds⟩
      | error kept =>
          obtain ⟨outcomes, worlds⟩ := ih tail kept
          exact ⟨congrArg _ outcomes, worlds⟩

end Evaluator

/-- What statements came to, up to the first error and with it. -/
def upToError : List (Except ε α) → List (Except ε α)
  | [] => []
  | .ok value :: rest => .ok value :: upToError rest
  | .error error :: _ => [.error error]

namespace Engine

/-- What statements amount to that came to the given outcomes, of which no more than the last is an error, and left
the world: that error with its index, where the first statement has the given one, or the value of the last statement,
or `last` if there is none. -/
def verdict (index : Nat) (last : Int64) (outcomes : List (Except EvalError Outcome))
    (world : World σ) : EStateM.Result EngineError (World σ) Int64 :=
  match outcomes.getLast? with
  | none => .ok last world
  | some (.ok outcome) => .ok outcome.result world
  | some (.error error) => .error (.evaluation (index + (outcomes.length - 1)) error) world

theorem verdict_cons_ok (index : Nat) (last : Int64) (outcome : Outcome)
    (rest : List (Except EvalError Outcome)) (world : World σ) :
    verdict index last (.ok outcome :: rest) world =
      verdict (index + 1) outcome.result rest world := by
  cases rest with
  | nil => rfl
  | cons next later =>
      have place : index + ((.ok outcome :: next :: later : List (Except EvalError Outcome)).length - 1) =
          index + 1 + ((next :: later).length - 1) := by
        simp only [List.length_cons]
        omega
      rw [verdict, verdict, List.getLast?_cons_cons, List.getLast?_cons, place]
      cases later.getLast?.getD next with
      | ok ended => rfl
      | error fault => rfl

/-- A run is the execution of all statements, cut off behind the first error. -/
theorem runDirect_eq_verdict (engine : Engine σ) (index : Nat) (last : Int64) (program : Program)
    (world : World σ) :
    let outcomes := upToError (engine.evaluator.executeApart program world).1
    let cut := engine.evaluator.executeApart (program.take outcomes.length) world
    cut.1 = outcomes ∧ engine.runDirect index last program world = verdict index last outcomes cut.2 := by
  induction program generalizing index last world with
  | nil => exact ⟨rfl, rfl⟩
  | cons statement rest ih =>
      cases came : engine.evaluator.executeDirect statement world with
      | ok outcome after =>
          obtain ⟨sameOutcomes, sameEnd⟩ := ih (index + 1) outcome.result after
          rw [Evaluator.executeApart_of_ok came, runDirect_of_ok came]
          simp only [upToError, List.length_cons, List.take_succ_cons,
            Evaluator.executeApart_of_ok came, verdict_cons_ok]
          exact ⟨congrArg _ sameOutcomes, sameEnd⟩
      | error error after =>
          rw [Evaluator.executeApart_of_error came, runDirect_of_error came]
          simp only [upToError, List.length_singleton, List.take_succ_cons, List.take_zero,
            Evaluator.executeApart_of_error came]
          exact ⟨rfl, rfl⟩

end Engine

section Evaluate

/-- Runs statements by `Statement.evaluate`, the first of which has the given index, up to the first that fails. The
result is the last outcome in words, or `last` if there is no statement. -/
def Program.evaluateFrom (index : Nat) (last : Option String) :
    Program → EStateM EngineError Environment (Option String)
  | [], environment => .ok last environment
  | statement :: rest, environment =>
    match statement.evaluate environment with
    | .ok text after => evaluateFrom (index + 1) (some text) rest after
    | .error error after => .error (.evaluation index error) after

def Program.evaluate (program : Program) : EStateM EngineError Environment (Option String) :=
  Program.evaluateFrom 0 none program

theorem Statement.evaluate_eq (statement : Statement) (environment : Environment) :
    statement.evaluate environment =
      match ({} : Evaluator Unit).executeDirect statement { environment, memory := () } with
      | .ok outcome after => .ok outcome.text after.environment
      | .error error after => .error error after.environment := by
  have same : ({} : Evaluator Unit).execute statement { environment, memory := () } =
      Machine.lift (({} : Evaluator Unit).executeDirect statement) { environment, memory := () } :=
    ({} : Evaluator Unit).execute_agrees statement { environment, memory := () }
  simp only [Statement.evaluate, Environment.start, bind, EStateM.bind, same, Machine.lift]
  cases ({} : Evaluator Unit).executeDirect statement { environment, memory := () } with
  | ok outcome after => rfl
  | error error after => rfl

/-- Without a resolver an action notes nothing. -/
theorem Evaluator.executeDirect_unasked {options : EvalOptions} {statement : Statement}
    {environment : Environment} {outcome : Outcome} {after : World Unit}
    (came : executeDirect ⟨options, none⟩ statement { environment, memory := () } = .ok outcome after) :
    after = { environment := after.environment, memory := () } := by
  have alike := executeDirect_alike options (fun _ _ => rfl) statement _ _
    (.start environment none () (none : Option (Resolver Unit)) ())
  rw [came] at alike
  cases alike with
  | ok related =>
      obtain ⟨-, names, ⟨-, nothing⟩, -⟩ := related
      cases after
      cases nothing
      rfl

/-- Statements evaluated one by one come to what a run of the engine does, which tells the value of the last one. -/
theorem Program.evaluateFrom_eq (index : Nat) (last : Int64) (text : Option String)
    (program : Program) (environment : Environment) :
    evaluateFrom index text program environment =
      match ({} : Engine Unit).runDirect index last program { environment, memory := () } with
      | .ok value after =>
        .ok ((program.getLast?.map fun statement => (statement.outcome value).text).or text)
          after.environment
      | .error error after => .error error after.environment := by
  induction program generalizing index last text environment with
  | nil => rfl
  | cons statement rest ih =>
      rw [evaluateFrom, Statement.evaluate_eq]
      cases came : ({} : Evaluator Unit).executeDirect statement { environment, memory := () } with
      | error error after => rw [Engine.runDirect_of_error came]
      | ok outcome after =>
          -- what is left but for the bindings is what there was, so that the next statement starts anew from them
          have clean := Evaluator.executeDirect_unasked came
          have value := Evaluator.outcome_result_of_ok came
          rw [Engine.runDirect_of_ok came]
          dsimp only
          rw [ih (index + 1) outcome.result, ← clean]
          cases rest with
          | nil =>
              simp only [Engine.runDirect, List.getLast?_nil, List.getLast?_singleton,
                Option.map_none, Option.map_some, Option.none_or, Option.some_or, value]
          | cons next later =>
              simp only [List.getLast?_cons, Option.getD_some, Option.map_some, Option.some_or]

end Evaluate

/-- One evaluator executes statements as well as a new one for each, for it is back at its depth after every
evaluation. A run is that execution, cut off behind the first error. With default options and no resolver, statements
evaluated one by one come to what the run does: the same error at the same index, or the last outcome in words, and
the same environment. -/
theorem Engine.execution_paths_agree (engine : Engine σ) (program : Program) (world : World σ) :
    (∀ (e : Expr) (machine : Machine σ),
      (Machine.left (engine.evaluator.eval e machine)).depth = machine.depth) ∧
    (∀ (statement : Statement) (machine : Machine σ),
      (Machine.left (engine.evaluator.execute statement machine)).depth = machine.depth) ∧
    engine.evaluator.executeAll program { world with } =
      ((engine.evaluator.executeApart program world).1,
        { (engine.evaluator.executeApart program world).2 with }) ∧
    (let outcomes := upToError (engine.evaluator.executeAll program { world with }).1
      let cut := engine.evaluator.executeAll (program.take outcomes.length) { world with }
      cut.1 = outcomes ∧ engine.run program world = verdict 0 0 outcomes cut.2.toWorld) ∧
    ∀ environment : Environment, program.evaluate environment =
      match ({} : Engine Unit).run program { environment, memory := () } with
      | .ok value after =>
        .ok (program.getLast?.map fun statement => (statement.outcome value).text) after.environment
      | .error error after => .error error after.environment := by
  refine ⟨engine.evaluator.depth_eval, engine.evaluator.depth_execute,
    engine.evaluator.executeAll_eq program world, ?_, fun environment => ?_⟩
  · simp only [Evaluator.executeAll_eq]
    rw [run_eq_runDirect]
    exact engine.runDirect_eq_verdict 0 0 program world
  · rw [run_eq_runDirect, Program.evaluate, Program.evaluateFrom_eq 0 0]
    simp only [Option.or_none]

end Abacus
