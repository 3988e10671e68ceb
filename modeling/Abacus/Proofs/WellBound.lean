import Abacus.Proofs.DepthBound
import Abacus.Proofs.RelatedRuns
import Abacus.Resolver.Script

set_option autoImplicit false

namespace Abacus

variable {σ τ : Type}

/-- Each name in an expression of the program is bound in the environment, or an earlier statement assigns to it. -/
def Program.WellBound (environment : Environment) (program : Program) : Prop :=
  ∀ before statement later, program = before ++ statement :: later →
    ∀ name ∈ statement.expr.names, name ∈ environment ∨ ∃ e, Statement.assignment name e ∈ before

namespace Program.WellBound

variable {environment : Environment} {statement : Statement} {rest : Program}

theorem head (bound : WellBound environment (statement :: rest)) :
    ∀ name ∈ statement.expr.names, name ∈ environment := by
  intro name member
  rcases bound [] statement rest rfl name member with already | ⟨e, assigned⟩
  · exact already
  · cases assigned

/-- What a statement assigns to is bound for those after it. -/
theorem tail (bound : WellBound environment (statement :: rest)) (value : Int64) (world : World σ)
    (same : world.environment = environment) :
    WellBound ((statement.outcome value).settle world).environment rest := by
  subst same
  intro before later others parts name member
  have split : statement :: rest = (statement :: before) ++ later :: others := by
    rw [parts, List.cons_append]
  rcases bound (statement :: before) later others split name member with already | ⟨e, assigned⟩
  · apply Or.inl
    cases statement with
    | expression e => exact already
    | assignment target e => exact Std.ExtTreeMap.mem_insert.mpr (Or.inr already)
  · rcases List.mem_cons.mp assigned with here | earlier
    · apply Or.inl
      subst here
      exact Std.ExtTreeMap.mem_insert_self
    · exact Or.inr ⟨e, earlier⟩

end Program.WellBound

/-- The evaluation of two worlds leaves both as they are. They come to the same value, or fail by a division that is one
of the given operators, or at the limit on depth. -/
inductive Undisturbed (operators : List BinaryOp) (world : World σ) (twin : World τ) :
    EStateM.Result EvalError (World σ) Int64 → EStateM.Result EvalError (World τ) Int64 → Prop
  | value (value : Int64) : Undisturbed operators world twin (.ok value world) (.ok value twin)
  | divides {op : BinaryOp} (member : op ∈ operators) (division : op = .div ∨ op = .rem) :
      Undisturbed operators world twin (.error (.divisionByZero op) world)
        (.error (.divisionByZero op) twin)
  | tooDeep (depth limit : Nat) :
      Undisturbed operators world twin (.error (.tooDeep depth limit) world)
        (.error (.tooDeep depth limit) twin)

namespace Evaluator

variable {first : Evaluator σ} {second : Evaluator τ} {operators : List BinaryOp} {world : World σ}
  {twin : World τ}

theorem undisturbed_congruence (operators : List BinaryOp) (world : World σ) (twin : World τ)
    (limits : first.options.depthLimit = second.options.depthLimit) :
    Congruence first second fun action other =>
      Undisturbed operators world twin (action world) (other twin) where
  value := .value
  next := by
    intro action other rest restOther head tail
    simp only [Bind.bind, EStateM.bind]
    generalize action world = left at head
    generalize other twin = right at head
    cases head with
    | value value => exact tail value
    | divides member division => exact .divides member division
    | tooDeep depth limit => exact .tooDeep depth limit
  start room inside := by
    unfold direct within
    rw [← limits]
    split
    · rename_i open_
      exact inside open_
    · exact .tooDeep _ _

/-- An expression whose names are all bound is evaluated without a change to the world. -/
theorem direct_undisturbed (limits : first.options.depthLimit = second.options.depthLimit) {e : Expr}
    (bound : ∀ name ∈ e.names, name ∈ world.environment)
    (same : twin.environment = world.environment) :
    Undisturbed e.operators world twin (first.direct 0 e world) (second.direct 0 e twin) := by
  apply (undisturbed_congruence e.operators world twin limits).direct
  · intro name member
    obtain ⟨value, found⟩ : ∃ value, world.environment[name]? = some value :=
      Option.isSome_iff_exists.mp (Std.ExtTreeMap.mem_iff_isSome_getElem?.mp (bound name member))
    have foundTwin : twin.environment[name]? = some value := by rw [same, found]
    rw [lookup_bound found, lookup_bound foundTwin]
    exact .value value
  · intro op member left right
    cases came : op.apply left right with
    | ok value => exact .value value
    | error error =>
        obtain ⟨division, -, rfl⟩ := BinaryOp.apply_eq_error_iff.mp came
        exact .divides member division

end Evaluator

/-- The resolver was not asked since the earlier world, and remembers what it did then. -/
structure World.Unasked (earlier later : World σ) : Prop where
  memory : later.memory = earlier.memory
  consultations : later.consultations = earlier.consultations

namespace World.Unasked

theorem refl (world : World σ) : world.Unasked world := ⟨rfl, rfl⟩

theorem trans {earlier later final : World σ} (first : earlier.Unasked later)
    (second : later.Unasked final) : earlier.Unasked final :=
  ⟨second.memory.trans first.memory, second.consultations.trans first.consultations⟩

theorem settle (world : World σ) (outcome : Outcome) : world.Unasked (outcome.settle world) := by
  cases outcome with
  | value value => exact refl world
  | assigned name value => exact ⟨rfl, rfl⟩

end World.Unasked

theorem Outcome.settle_environment {world : World σ} {twin : World τ}
    (same : twin.environment = world.environment) (outcome : Outcome) :
    (outcome.settle twin).environment = (outcome.settle world).environment := by
  cases outcome with
  | value value => exact same
  | assigned name value => exact congrArg (·.insert name value) same

/-- An error by which a program may fail whose names are all bound: one of its statements divides. -/
def EngineError.Divides (program : Program) (error : EngineError) : Prop :=
  ∃ index op, error = .evaluation index (.divisionByZero op) ∧ (op = .div ∨ op = .rem) ∧
    ∃ statement ∈ program, op ∈ statement.expr.operators

theorem EngineError.Divides.cons {program : Program} {error : EngineError}
    (divides : error.Divides program) (statement : Statement) : error.Divides (statement :: program) := by
  obtain ⟨index, op, named, division, divider, member, occurs⟩ := divides
  exact ⟨index, op, named, division, divider, List.mem_cons_of_mem _ member, occurs⟩

namespace Engine

/-- Two runs of a program whose names are all bound, with any resolvers, on the same environment: both go through with
the same environment and no question, or fail by the same division. -/
theorem runDirect_wellBound (engine : Engine σ) (resolver : Option (Resolver τ)) {program : Program}
    (index : Nat) (last : Int64) {world : World σ} {twin : World τ}
    (bound : program.WellBound world.environment) (same : twin.environment = world.environment)
    (clear : ∀ statement ∈ program, ∀ (before after : World σ) (error : EvalError),
      engine.evaluator.executeDirect statement before = .error error after →
        error.isRecoverable = true) :
    SameEnd (fun after twin => twin.environment = after.environment ∧ world.Unasked after)
      (fun error after twin => twin.environment = after.environment ∧ world.Unasked after ∧
        error.Divides program)
      (engine.runDirect index last program world)
      (runDirect ⟨engine.options, resolver⟩ index last program twin) := by
  induction program generalizing index last world twin with
  | nil => exact .ok ⟨same, .refl world⟩
  | cons statement rest ih =>
      let other : Engine τ := ⟨engine.options, resolver⟩
      have limits : engine.evaluator.options.depthLimit = other.evaluator.options.depthLimit := rfl
      have whole := Evaluator.direct_undisturbed limits bound.head same
      obtain ⟨clearHead, clearRest⟩ := List.forall_mem_cons.mp clear
      have meaning := engine.evaluator.executeDirect_eq statement world
      have meaningTwin := other.evaluator.executeDirect_eq statement twin
      generalize engine.evaluator.direct 0 statement.expr world = left at whole meaning
      generalize other.evaluator.direct 0 statement.expr twin = right at whole meaningTwin
      cases whole with
      | value value =>
          rw [runDirect_of_ok meaning, runDirect_of_ok meaningTwin]
          have later := ih (index + 1) (statement.outcome value).result (bound.tail value world rfl)
            (Outcome.settle_environment same _) clearRest
          have settled := World.Unasked.settle world (statement.outcome value)
          refine later.imp ?_ ?_
          · rintro after afterTwin ⟨kept, unasked⟩
            exact ⟨kept, settled.trans unasked⟩
          · rintro error after afterTwin ⟨kept, unasked, divides⟩
            exact ⟨kept, settled.trans unasked, divides.cons statement⟩
      | @divides op member division =>
          rw [runDirect_of_error meaning, runDirect_of_error meaningTwin]
          exact .error ⟨same, .refl world, index, op, rfl, division, statement, List.mem_cons_self, member⟩
      | tooDeep depth limit =>
          -- the limit suffices for each statement, in every world
          have fault := clearHead world world (.tooDeep depth limit) meaning
          cases fault

/-- A program that was parsed under a limit on nesting, whose names are all bound before they are read, and for which
the limit on depth suffices, goes through or fails by dividing by zero. The resolver is never asked, and with any other
one, or none, the run comes to the same and leaves the same environment. A program that does not divide goes through. -/
theorem run_of_wellBound {limit : Nat} {source : String} {program : Program}
    (parsed : Program.parse limit source = .ok program) (engine : Engine σ)
    (deep : 9 * limit - 1 ≤ engine.options.depthLimit) (world : World σ)
    (bound : program.WellBound world.environment) :
    ((∃ value after, engine.run program world = .ok value after) ∨
      ∃ index op after, engine.run program world = .error (.evaluation index (.divisionByZero op)) after ∧
        (op = .div ∨ op = .rem)) ∧
    world.Unasked (World.left (engine.run program world)) ∧
    (∀ (τ : Type) (resolver : Option (Resolver τ)) (memory : τ),
      SameEnd (fun after twin => twin.environment = after.environment)
        (fun _ after twin => twin.environment = after.environment) (engine.run program world)
        (run ⟨engine.options, resolver⟩ program { environment := world.environment, memory })) ∧
    ((∀ statement ∈ program, .div ∉ statement.expr.operators ∧ .rem ∉ statement.expr.operators) →
      ∃ value after, engine.run program world = .ok value after) := by
  have clear : ∀ statement ∈ program, ∀ (before after : World σ) (error : EvalError),
      engine.evaluator.executeDirect statement before = .error error after →
        error.isRecoverable = true := by
    intro statement member before after error failed
    exact Program.isRecoverable_of_parse parsed deep member failed
  simp only [run_eq_runDirect]
  have alike (τ : Type) (resolver : Option (Resolver τ)) (memory : τ) :
      SameEnd (fun after twin => twin.environment = after.environment)
        (fun _ after twin => twin.environment = after.environment)
        (engine.runDirect 0 0 program world)
        (runDirect ⟨engine.options, resolver⟩ 0 0 program
          { environment := world.environment, memory }) := by
    refine (engine.runDirect_wellBound resolver 0 0 bound rfl clear).imp ?_ ?_
    · exact fun _ _ kept => kept.1
    · exact fun _ _ _ kept => kept.1
  -- beside itself, the run tells how it ends
  have own := engine.runDirect_wellBound engine.resolver 0 0 bound rfl clear
  rcases own.ok_or_error with ⟨value, after, _, ran, -, -, unasked⟩ | ⟨error, after, _, ran, -, failed⟩
  · rw [ran] at alike ⊢
    exact ⟨Or.inl ⟨value, after, rfl⟩, unasked, alike, fun _ => ⟨value, after, rfl⟩⟩
  · obtain ⟨-, unasked, index, op, rfl, division, statement, member, occurs⟩ := failed
    rw [ran] at alike ⊢
    refine ⟨Or.inr ⟨index, op, after, rfl, division⟩, unasked, alike, fun undivided => ?_⟩
    obtain ⟨noDivision, noRemainder⟩ := undivided statement member
    rcases division with rfl | rfl
    · exact absurd occurs noDivision
    · exact absurd occurs noRemainder

/-- A division by what an earlier statement binds. The branch that is not taken reads a bound name as well. -/
theorem run_of_wellBound_division :
    ∃ program, Program.parse 2 "var b = 1 - a; 0 ? b : a / b" = .ok program ∧ 9 * 2 - 1 ≤ 17 ∧
      program.WellBound ((∅ : Environment).insert "a" 1) ∧
      ∃ after, run ⟨{ depthLimit := 17 }, some .scripted⟩ program
          ⟨(∅ : Environment).insert "a" 1, [("b", [.value 5])], []⟩ =
        .error (.evaluation 1 (.divisionByZero .div)) after ∧ after.consultations = [] := by
  let first : Statement := .assignment "b" (.binary .sub (.number 1) (.name "a"))
  let second : Statement :=
    .expression (.ternary (.number 0) (.name "b") (.binary .div (.name "a") (.name "b")))
  let environment : Environment := (∅ : Environment).insert "a" 1
  have parsed : Program.parse 2 "var b = 1 - a; 0 ? b : a / b" = .ok [first, second] := by cbv
  have deep : 9 * 2 - 1 ≤ 17 := by decide
  have here : "a" ∈ environment := Std.ExtTreeMap.mem_insert_self
  have bound : Program.WellBound environment [first, second] := by
    intro before statement later parts name member
    rcases before with _ | ⟨earlier, _ | ⟨further, others⟩⟩
    · obtain ⟨rfl, -⟩ := List.cons.inj parts
      have same : name = "a" := by grind [Statement.expr, Expr.names]
      exact Or.inl (same ▸ here)
    · obtain ⟨assigned, parts⟩ := List.cons.inj parts
      obtain ⟨rfl, -⟩ := List.cons.inj parts
      have either : name = "b" ∨ name = "a" := by grind [Statement.expr, Expr.names]
      rcases either with rfl | rfl
      · exact Or.inr ⟨_, List.mem_singleton.mpr assigned⟩
      · exact Or.inl here
    · simp at parts
  obtain ⟨-, unasked, -⟩ := run_of_wellBound parsed ⟨{ depthLimit := 17 }, some .scripted⟩ deep
    ⟨environment, [("b", [.value 5])], []⟩ bound
  have failed : ∃ after, run ⟨{ depthLimit := 17 }, some .scripted⟩ [first, second]
      ⟨environment, [("b", [.value 5])], []⟩ =
        .error (.evaluation 1 (.divisionByZero .div)) after := by
    rw [run_eq_runDirect]
    exact ⟨_, rfl⟩
  obtain ⟨after, failed⟩ := failed
  rw [failed] at unasked
  exact ⟨_, parsed, deep, bound, after, failed, unasked.consultations⟩

end Engine

end Abacus
