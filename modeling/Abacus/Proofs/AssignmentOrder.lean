import Abacus.Proofs.EvaluatorReuse
import Abacus.Proofs.Memoization
import Abacus.Proofs.RunFrame

set_option autoImplicit false

/- Assignments that do not concern each other commute. What one of them writes lies ahead of the other: where those writes
bind a name that the other reads, they bind it to what it would find anyway, so that it comes to the same with them and
without, and they stay on top of what it writes itself. -/
namespace Abacus

variable {σ : Type}

namespace Environment

/-- The writes bind a name to nothing but what a lookup finds that starts in the environment: its binding there, or the
value that the resolver gives where it has none. -/
def Foretells (answers : String → Answer) (start writes : Environment) (name : String) : Prop :=
  ∀ value, writes[name]? = some value →
    start[name]? = some value ∨ start[name]? = none ∧ answers name = .value value

variable {answers : String → Answer} {start kept other writes : Environment} {name : String}
  {value : Int64}

theorem Memoizes.unbound (memoizes : Memoizes answers kept start) (unbound : kept[name]? = none) :
    start[name]? = none := by
  cases bound : start[name]? with
  | none => rfl
  | some value =>
      rw [memoizes.keeps name value bound] at unbound
      cases unbound

theorem Memoizes.foretells (memoizes : Memoizes answers kept start) (name : String) :
    Foretells answers start kept name := by
  intro value bound
  cases known : start[name]? with
  | some first =>
      rw [memoizes.keeps name first known] at bound
      exact Or.inl bound
  | none => exact Or.inr ⟨rfl, memoizes.extra name value bound known⟩

/-- Two environments that foretell a name from the same start bind it alike if both do. -/
theorem Foretells.eq (foretold : Foretells answers start writes name)
    (foretoldOther : Foretells answers start other name) {first : Int64}
    (bound : writes[name]? = some first) (boundOther : other[name]? = some value) : first = value := by
  rcases foretold first bound with here | ⟨absent, given⟩
  · rcases foretoldOther value boundOther with there | ⟨absent, -⟩
    · exact Option.some.inj (here.symm.trans there)
    · rw [here] at absent
      cases absent
  · rcases foretoldOther value boundOther with there | ⟨-, givenOther⟩
    · rw [absent] at there
      cases there
    · exact Answer.value.inj (given.symm.trans givenOther)

/-- Writes to different names, each on top of what was kept for it, leave the same whichever come last. -/
theorem Memoizes.insert_union_comm (memoizes : Memoizes answers kept start)
    (memoizesOther : Memoizes answers other start) {x y : String} (apart : x ≠ y) (first second : Int64) :
    (kept ∪ other.insert y second).insert x first = (other ∪ kept.insert x first).insert y second := by
  refine Std.ExtTreeMap.ext_getElem? fun name => ?_
  simp only [getElem?_insert, Std.ExtTreeMap.getElem?_union]
  by_cases isX : x = name
  · have notY : y ≠ name := fun same => apart (isX.trans same.symm)
    rw [if_pos isX, if_pos isX, if_neg notY, Option.some_or]
  · rw [if_neg isX, if_neg isX]
    by_cases isY : y = name
    · rw [if_pos isY, if_pos isY, Option.some_or]
    · rw [if_neg isY, if_neg isY]
      cases bound : kept[name]? with
      | none => rw [Option.or_none, Option.none_or]
      | some value =>
          cases boundOther : other[name]? with
          | none => rw [Option.or_none, Option.none_or]
          | some found =>
              rw [(memoizes.foretells name).eq (memoizesOther.foretells name) bound boundOther]

/-- A write does not show below another one of the same value. -/
theorem insert_union_of_bound (environment : Environment) (bound : writes[name]? = some value) :
    environment.insert name value ∪ writes = environment ∪ writes := by
  refine Std.ExtTreeMap.ext_getElem? fun found => ?_
  rw [Std.ExtTreeMap.getElem?_union, Std.ExtTreeMap.getElem?_union, getElem?_insert]
  by_cases same : name = found
  · rw [← same, bound, Option.some_or, Option.some_or]
  · rw [if_neg same]

/-- A write to a name that others leave alone may as well be made before them. -/
theorem insert_union_of_unbound (environment : Environment) (value : Int64)
    (unbound : writes[name]? = none) :
    (environment ∪ writes).insert name value = environment.insert name value ∪ writes := by
  refine Std.ExtTreeMap.ext_getElem? fun found => ?_
  rw [getElem?_insert, Std.ExtTreeMap.getElem?_union, Std.ExtTreeMap.getElem?_union, getElem?_insert]
  by_cases same : name = found
  · rw [if_pos same, if_pos same, ← same, unbound, Option.none_or]
  · rw [if_neg same, if_neg same]

/-- Writes that bind all that an environment binds leave nothing of it. -/
theorem union_eq_right (covers : ∀ name : String, writes[name]? = none → start[name]? = none) :
    start ∪ writes = writes := by
  refine Std.ExtTreeMap.ext_getElem? fun name => ?_
  rw [Std.ExtTreeMap.getElem?_union]
  cases bound : writes[name]? with
  | some value => rfl
  | none => rw [covers name bound, Option.none_or]

end Environment

/-- The worlds of two runs under a stable resolver, the second of which was ahead by some writes at the start: the first
has kept values of the resolver since then, and the second has the same bindings with the writes on top. -/
structure World.Ahead (resolver : Option (Resolver σ)) (answers : String → Answer)
    (start writes : Environment) (world ahead : World σ) : Prop where
  memoizes : world.environment.Memoizes answers start
  environment : ahead.environment = world.environment ∪ writes
  stable : Resolver.IsStable answers resolver world.memory
  stableAhead : Resolver.IsStable answers resolver ahead.memory

section Runs

variable {evaluator : Evaluator σ} {answers : String → Answer} {start writes : Environment}

/-- A run that is not ahead keeps the value that it resolved; in the run that is ahead the writes bind it already. -/
theorem World.Ahead.memoized {resolver : Resolver σ} {world ahead : World σ} {name : String}
    {value : Int64} (related : World.Ahead (some resolver) answers start writes world ahead)
    (unbound : world.environment[name]? = none) (given : answers name = .value value)
    (wrote : writes[name]? = some value) :
    World.Ahead (some resolver) answers start writes
      ((world.asked resolver name).memoized evaluator name value) ahead := by
  obtain ⟨memoizes, environment, stable, stableAhead⟩ := related
  have after := stable.next name
  unfold World.memoized
  split
  · refine ⟨memoizes.keep (memoizes.unbound unbound) given, ?_, after, stableAhead⟩
    rw [environment]
    exact (Environment.insert_union_of_bound _ wrote).symm
  · exact ⟨memoizes, environment, after, stableAhead⟩

/-- Both runs keep the value that they resolved. -/
theorem World.Ahead.memoized_both {resolver : Resolver σ} {world ahead : World σ} {name : String}
    {value : Int64} (related : World.Ahead (some resolver) answers start writes world ahead)
    (unbound : world.environment[name]? = none) (given : answers name = .value value)
    (left : writes[name]? = none) :
    World.Ahead (some resolver) answers start writes
      ((world.asked resolver name).memoized evaluator name value)
      ((ahead.asked resolver name).memoized evaluator name value) := by
  obtain ⟨memoizes, environment, stable, stableAhead⟩ := related
  have after := stable.next name
  have afterAhead := stableAhead.next name
  unfold World.memoized
  split
  · refine ⟨memoizes.keep (memoizes.unbound unbound) given, ?_, after, afterAhead⟩
    dsimp only [World.environment_asked]
    rw [environment]
    exact Environment.insert_union_of_unbound _ value left
  · exact ⟨memoizes, environment, after, afterAhead⟩

/-- Where the writes bind a name as they foretold, a lookup without them comes to the same value. -/
theorem Evaluator.lookup_written {world ahead : World σ} {name : String} {value : Int64}
    (related : World.Ahead evaluator.resolver answers start writes world ahead)
    (foretold : Environment.Foretells answers start writes name) (wrote : writes[name]? = some value) :
    SameEnd (World.Ahead evaluator.resolver answers start writes)
      (fun _ => World.Ahead evaluator.resolver answers start writes)
      (evaluator.lookup name world) (evaluator.lookup name ahead) := by
  have boundAhead : ahead.environment[name]? = some value := by
    rw [related.environment, Std.ExtTreeMap.getElem?_union, wrote, Option.some_or]
  cases bound : world.environment[name]? with
  | some found =>
      rw [← foretold.eq (related.memoizes.foretells name) wrote bound] at bound
      rw [lookup_bound bound, lookup_bound boundAhead]
      exact .ok related
  | none =>
      have unbound := related.memoizes.unbound bound
      have given : answers name = .value value := by
        rcases foretold value wrote with known | ⟨-, given⟩
        · rw [unbound] at known
          cases known
        · exact given
      cases somebody : evaluator.resolver with
      | none =>
          have nothing := related.stable
          rw [somebody] at nothing
          rw [nothing name] at given
          cases given
      | some resolver =>
          rw [somebody] at related
          have resolved : (resolver.resolve name world.memory).1.value? = some value := by
            rw [related.stable.answer, given]
            rfl
          rw [lookup_resolved bound somebody resolved, lookup_bound boundAhead]
          exact .ok (related.memoized bound given wrote)

/-- Where the writes leave a name alone, a lookup goes with them as it goes without. -/
theorem Evaluator.lookup_unwritten {world ahead : World σ} {name : String}
    (related : World.Ahead evaluator.resolver answers start writes world ahead)
    (left : writes[name]? = none) :
    SameEnd (World.Ahead evaluator.resolver answers start writes)
      (fun _ => World.Ahead evaluator.resolver answers start writes)
      (evaluator.lookup name world) (evaluator.lookup name ahead) := by
  have same : ahead.environment[name]? = world.environment[name]? := by
    rw [related.environment, Std.ExtTreeMap.getElem?_union, left, Option.none_or]
  cases bound : world.environment[name]? with
  | some value =>
      rw [lookup_bound bound, lookup_bound (same.trans bound)]
      exact .ok related
  | none =>
      have unboundAhead := same.trans bound
      cases somebody : evaluator.resolver with
      | none =>
          rw [lookup_unasked bound somebody, lookup_unasked unboundAhead somebody, ← somebody]
          exact .error related
      | some resolver =>
          rw [somebody] at related
          have answer := congrArg Answer.value? (related.stable.answer name)
          have answerAhead := congrArg Answer.value? (related.stableAhead.answer name)
          cases given : (answers name).value? with
          | none =>
              rw [lookup_refused bound somebody (answer.trans given),
                lookup_refused unboundAhead somebody (answerAhead.trans given)]
              exact .error { related with
                stable := related.stable.next name
                stableAhead := related.stableAhead.next name }
          | some value =>
              rw [lookup_resolved bound somebody (answer.trans given),
                lookup_resolved unboundAhead somebody (answerAhead.trans given)]
              exact .ok (related.memoized_both bound (Answer.eq_value_of_value? given) left)

/-- An expression comes to the same with writes and without, if they foretold the names in it. -/
theorem Evaluator.direct_ahead {e : Expr} {world ahead : World σ}
    (foretold : ∀ name ∈ e.names, Environment.Foretells answers start writes name)
    (related : World.Ahead evaluator.resolver answers start writes world ahead) :
    SameEnd (World.Ahead evaluator.resolver answers start writes)
      (fun _ => World.Ahead evaluator.resolver answers start writes)
      (evaluator.direct 0 e world) (evaluator.direct 0 e ahead) := by
  have relates : (Coupling.always (World.Ahead evaluator.resolver answers start writes)).Relates
      (evaluator.direct 0 e) (evaluator.direct 0 e) := by
    refine direct_relates rfl (fun name occurs => ?_) 0
    intro world ahead related
    cases wrote : writes[name]? with
    | some value => exact lookup_written related (foretold name occurs) wrote
    | none => exact lookup_unwritten related wrote
  exact relates world ahead related

end Runs

namespace Evaluator

variable {evaluator : Evaluator σ} {answers : String → Answer} {world between after : World σ}
  {x y : String} {first second : Expr} {value other : Int64}

/-- Under a stable resolver an evaluation keeps bindings, and binds beyond them only values of the resolver. -/
theorem direct_keeps (stable : Resolver.IsStable answers evaluator.resolver world.memory)
    (came : evaluator.direct 0 first world = .ok value after) :
    after.environment.Memoizes answers world.environment ∧
      Resolver.IsStable answers evaluator.resolver after.memory := by
  have related : World.Ahead evaluator.resolver answers world.environment ∅ world world :=
    ⟨.refl answers _, (Environment.union_empty _).symm, stable, stable⟩
  have nothing : ∀ name ∈ first.names, Environment.Foretells answers world.environment ∅ name := by
    intro name _ value bound
    rw [Std.ExtTreeMap.getElem?_empty] at bound
    cases bound
  have same := direct_ahead nothing related
  rw [came] at same
  cases same with
  | ok related => exact ⟨related.memoizes, related.stable⟩

/-- An expression comes to the same in front of an assignment to a name that does not occur in it and behind it, and
behind it what it writes lies below the assignment and all that was kept for that. -/
theorem direct_behind (stable : Resolver.IsStable answers evaluator.resolver world.memory)
    (came : evaluator.direct 0 first world = .ok value between) (absent : x ∉ second.names) :
    SameEnd
      (World.Ahead evaluator.resolver answers world.environment (between.environment.insert x value))
      (fun _ =>
        World.Ahead evaluator.resolver answers world.environment (between.environment.insert x value))
      (evaluator.direct 0 second world)
      (evaluator.direct 0 second ((Outcome.assigned x value).settle between)) := by
  obtain ⟨memoizes, stableBetween⟩ := direct_keeps stable came
  refine direct_ahead (fun name occurs => ?_) ⟨.refl answers _, ?_, stable, stableBetween⟩
  · have apart : x ≠ name := fun same => absent (same ▸ occurs)
    intro found bound
    rw [Environment.getElem?_insert, if_neg apart] at bound
    exact memoizes.foretells name found bound
  · refine (Environment.union_eq_right fun name unbound => ?_).symm
    obtain ⟨-, unbound⟩ := Environment.getElem?_insert_eq_none.mp unbound
    exact memoizes.unbound unbound

theorem executeAll_assignments (head : evaluator.direct 0 first world = .ok value between)
    (tail : evaluator.direct 0 second ((Outcome.assigned x value).settle between) = .ok other after) :
    evaluator.executeAll [.assignment x first, .assignment y second] { world with } =
      ([.ok (.assigned x value), .ok (.assigned y other)],
        { (Outcome.assigned y other).settle after with }) := by
  have ranFirst := evaluator.executeDirect_eq (.assignment x first) world
  rw [Statement.expr, head] at ranFirst
  have ranSecond := evaluator.executeDirect_eq (.assignment y second)
    ((Outcome.assigned x value).settle between)
  rw [Statement.expr, tail] at ranSecond
  rw [executeAll_eq, executeApart_of_ok ranFirst]
  dsimp only [Statement.outcome]
  rw [executeApart_of_ok ranSecond]
  rfl

theorem exists_of_executeAll_assignments {outcome outcomeOther : Outcome}
    (ran : (evaluator.executeAll [.assignment x first, .assignment y second] { world with }).1 =
      [.ok outcome, .ok outcomeOther]) :
    ∃ value between other after, evaluator.direct 0 first world = .ok value between ∧
      evaluator.direct 0 second ((Outcome.assigned x value).settle between) = .ok other after ∧
      outcome = .assigned x value ∧ outcomeOther = .assigned y other := by
  rw [executeAll_eq] at ran
  dsimp only at ran
  cases ranFirst : evaluator.executeDirect (.assignment x first) world with
  | error error failed =>
      rw [executeApart_of_error ranFirst] at ran
      cases ran
  | ok outcome assigned =>
      rw [executeApart_of_ok ranFirst] at ran
      obtain ⟨value, between, head, rfl, rfl⟩ := direct_of_executeDirect_ok ranFirst
      cases ranSecond : evaluator.executeDirect (.assignment y second)
          (((Statement.assignment x first).outcome value).settle between) with
      | error error failed =>
          rw [executeApart_of_error ranSecond] at ran
          cases ran
      | ok outcome assigned =>
          rw [executeApart_of_ok ranSecond] at ran
          obtain ⟨other, after, tail, rfl, rfl⟩ := direct_of_executeDirect_ok ranSecond
          cases ran
          exact ⟨value, between, other, after, head, tail, rfl, rfl⟩

/-- Two assignments to different names, neither of which occurs in the expression of the other, can be swapped under a
resolver that answers each name always the same way: if both succeed in one order they do in the other, each comes to
the same in both orders, and both orders leave the same environment. -/
theorem assignments_commute (stable : Resolver.IsStable answers evaluator.resolver world.memory)
    (apart : x ≠ y) (noX : x ∉ second.names) (noY : y ∉ first.names) {outcome outcomeOther : Outcome}
    (ran : (evaluator.executeAll [.assignment x first, .assignment y second] { world with }).1 =
      [.ok outcome, .ok outcomeOther]) :
    let swapped := evaluator.executeAll [.assignment y second, .assignment x first] { world with }
    swapped.1 = [.ok outcomeOther, .ok outcome] ∧
      swapped.2.environment =
        (evaluator.executeAll [.assignment x first, .assignment y second] { world with }).2.environment := by
  obtain ⟨value, between, other, after, head, tail, rfl, rfl⟩ := exists_of_executeAll_assignments ran
  -- the second assignment may as well run first, and then the first one may as well run behind it
  have behind := direct_behind stable head noX
  rw [tail] at behind
  generalize headSwapped : evaluator.direct 0 second world = early at behind
  cases behind with
  | ok related =>
      have behindSwapped := direct_behind stable headSwapped noY
      rw [head] at behindSwapped
      generalize tailSwapped : evaluator.direct 0 first _ = late at behindSwapped
      cases behindSwapped with
      | ok relatedSwapped =>
          rw [executeAll_assignments head tail, executeAll_assignments headSwapped tailSwapped]
          refine ⟨rfl, ?_⟩
          dsimp only [Outcome.settle]
          rw [related.environment, relatedSwapped.environment]
          exact relatedSwapped.memoizes.insert_union_comm related.memoizes apart value other

def knowsN : Resolver Unit := ⟨fun name memory => (if name = "n" then .value 3 else .unknown, memory)⟩

/-- Both assignments read the name `n`, which only the one that runs first has to ask for. -/
theorem assignments_commute_resolved :
    Resolver.IsStable (fun name => if name = "n" then .value 3 else .unknown) (some knowsN) () ∧
    "x" ≠ "y" ∧ "x" ∉ (Expr.name "n").names ∧ "y" ∉ (Expr.binary .add (.name "x") (.name "n")).names ∧
    let world : World Unit := ⟨(∅ : Environment).insert "x" 4, (), []⟩
    let run := Evaluator.executeAll ⟨{}, some knowsN⟩
      [.assignment "x" (.binary .add (.name "x") (.name "n")), .assignment "y" (.name "n")] { world with }
    let swapped := Evaluator.executeAll ⟨{}, some knowsN⟩
      [.assignment "y" (.name "n"), .assignment "x" (.binary .add (.name "x") (.name "n"))] { world with }
    run.1 = [.ok (.assigned "x" 7), .ok (.assigned "y" 3)] ∧
      swapped.1 = [.ok (.assigned "y" 3), .ok (.assigned "x" 7)] ∧
      swapped.2.environment = run.2.environment := by
  have stable : Resolver.IsStable (fun name => if name = "n" then .value 3 else .unknown)
      (some knowsN) () := .of_fixed fun _ => rfl
  have apart : "x" ≠ "y" := by decide
  have noX : "x" ∉ (Expr.name "n").names := by decide
  have noY : "y" ∉ (Expr.binary .add (.name "x") (.name "n")).names := by decide
  have ran : (Evaluator.executeAll ⟨{}, some knowsN⟩
      [.assignment "x" (.binary .add (.name "x") (.name "n")), .assignment "y" (.name "n")]
      { toWorld := ⟨(∅ : Environment).insert "x" 4, (), []⟩ }).1 =
        [.ok (.assigned "x" 7), .ok (.assigned "y" 3)] :=
    congrArg Prod.fst (executeAll_assignments rfl rfl)
  exact ⟨stable, apart, noX, noY, ran, assignments_commute stable apart noX noY ran⟩

end Evaluator

end Abacus
