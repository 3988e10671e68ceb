import Abacus.Evaluator

set_option autoImplicit false

namespace Abacus

variable {σ : Type}

/-- A message about a place in a source text. -/
structure Diagnostic where
  message : String
  position : Position
  help : Option String := none
  code : Option String := none
deriving DecidableEq, Repr

def ParseError.diagnostic (error : ParseError) : Diagnostic where
  message := error.problem.message
  position := error.position
  help := error.problem.help?
  code := some error.problem.code

/-- Why a program did not run to its end: its text was rejected, or the statement with the given index failed. -/
inductive EngineError where
  | parse (diagnostic : Diagnostic) (source : String)
  | evaluation (statement : Nat) (error : EvalError)
deriving DecidableEq, Repr

def EngineError.message : EngineError → String
  | parse diagnostic _ => s!"parse error: {diagnostic.message}"
  | evaluation statement error => s!"evaluation failed in statement {statement}: {error.message}"

namespace Evaluator

/-- Runs every statement, going on after errors. -/
def executeAll (evaluator : Evaluator σ) :
    Program → Machine σ → List (Except EvalError Outcome) × Machine σ
  | [], machine => ([], machine)
  | statement :: rest, machine =>
    let (outcome, machine) := match evaluator.execute statement machine with
      | .ok outcome machine => (.ok outcome, machine)
      | .error error machine => (.error error, machine)
    let (outcomes, machine) := evaluator.executeAll rest machine
    (outcome :: outcomes, machine)

end Evaluator

structure Engine (σ : Type) where
  options : EngineOptions := {}
  resolver : Option (Resolver σ) := none

namespace Engine

def evaluator (engine : Engine σ) : Evaluator σ :=
  ⟨engine.options.toEvalOptions, engine.resolver⟩

def parse (engine : Engine σ) (source : String) : Except ParseError Program :=
  Program.parse engine.options.nestingLimit source

/-- Runs statements, the first of which has the given index. The value is that of the last one, or `last` if
there is none. -/
def runFrom (engine : Engine σ) (index : Nat) (last : Int64) :
    Program → EStateM EngineError (Machine σ) Int64
  | [], machine => .ok last machine
  | statement :: rest, machine =>
    match engine.evaluator.execute statement machine with
    | .ok outcome machine => engine.runFrom (index + 1) outcome.result rest machine
    | .error error machine => .error (.evaluation index error) machine

/-- Runs a program with one evaluator. The value is that of its last statement; that of an empty
program is zero. -/
def run (engine : Engine σ) (program : Program) : EStateM EngineError (World σ) Int64 :=
  Machine.start (engine.runFrom 0 0 program)

/-- Parses and runs a text. Nothing runs if the text is rejected. -/
def eval (engine : Engine σ) (source : String) : EStateM EngineError (World σ) Int64 :=
  match engine.parse source with
  | .ok program => engine.run program
  | .error error => throw (.parse error.diagnostic source)

end Engine

/-- Runs an action with default options and no resolver on an environment. -/
def Environment.start {α : Type} (action : Action Unit α) : EStateM EvalError Environment α :=
  fun environment =>
    match action { environment, memory := () } with
    | .ok value machine => .ok value machine.environment
    | .error error machine => .error error machine.environment

/-- Runs a statement with default options and no resolver; the result is its outcome in words. -/
def Statement.evaluate (statement : Statement) : EStateM EvalError Environment String :=
  Environment.start do return (← ({} : Evaluator Unit).execute statement).text

def Expr.evaluate (e : Expr) : EStateM EvalError Environment Int64 :=
  Environment.start (({} : Evaluator Unit).eval e)

end Abacus
