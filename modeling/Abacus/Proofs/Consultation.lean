import Abacus.Proofs.RelatedRuns
import Abacus.Proofs.RunHistory
import Abacus.Resolver.Script

set_option autoImplicit false

namespace Abacus

variable {σ : Type}

/-- Since the earlier world nothing happened but lookups of names, the last of which may have stopped it. -/
def World.AsksFrom (start : World σ) (stop : Option String) (world : World σ) : Prop :=
  ∃ made : List Consultation, world.consultations = made.reverse ++ start.consultations ∧
    Orderly start.environment (made.map .consulted) world.environment stop

namespace World.AsksFrom

variable {start world : World σ} {evaluator : Evaluator σ} {resolver : Resolver σ} {name : String}
  {value : Int64}

theorem refl (start : World σ) : start.AsksFrom none start := ⟨[], rfl, .nil⟩

theorem refused (asks : start.AsksFrom none world) (unbound : world.environment[name]? = none)
    (missing : (resolver.resolve name world.memory).1.value? = none) :
    start.AsksFrom (some name) (world.asked resolver name) := by
  obtain ⟨made, noted, orderly⟩ := asks
  refine ⟨made ++ [⟨name, (resolver.resolve name world.memory).1⟩], ?_, ?_⟩
  · simp only [World.asked, noted, List.reverse_append, List.reverse_singleton, List.cons_append,
      List.nil_append]
  · rw [List.map_append]
    exact orderly.append (.refused unbound missing)

theorem resolved (memoizes : evaluator.options.memoize = true) (asks : start.AsksFrom none world)
    (unbound : world.environment[name]? = none)
    (found : (resolver.resolve name world.memory).1.value? = some value) :
    start.AsksFrom none ((world.asked resolver name).memoized evaluator name value) := by
  obtain ⟨made, noted, orderly⟩ := asks
  refine ⟨made ++ [⟨name, (resolver.resolve name world.memory).1⟩], ?_, ?_⟩
  · simp only [World.consultations_memoized, World.asked, noted, List.reverse_append,
      List.reverse_singleton, List.cons_append, List.nil_append]
  · rw [List.map_append, World.memoized, if_pos memoizes]
    exact orderly.append (.resolved unbound found .nil)

end World.AsksFrom

namespace Evaluator

variable {evaluator : Evaluator σ} {start world after : World σ}

/-- The name at which an error stops the history of a run: the one for which the resolver had no value. -/
def stop? (evaluator : Evaluator σ) : EvalError → Option String
  | .undefinedVariable name => evaluator.resolver.map fun _ => name
  | _ => none

theorem stop?_of_fault {error : EvalError} (fault : ∀ name, error ≠ .undefinedVariable name) :
    evaluator.stop? error = none := by
  cases error with
  | undefinedVariable name => exact absurd rfl (fault name)
  | _ => rfl

/-- An evaluation that started in a world asks from it on, up to the name at which it stops. -/
def asking (evaluator : Evaluator σ) (start : World σ) : Coupling σ σ :=
  .alone (start.AsksFrom none) (fun error => start.AsksFrom (evaluator.stop? error))
    fun fault asks => by rwa [stop?_of_fault fault]

theorem lookup_asks (memoizes : evaluator.options.memoize = true) (start : World σ) (name : String) :
    (evaluator.asking start).Relates (evaluator.lookup name) (evaluator.lookup name) := by
  rintro world _ ⟨rfl, asks⟩
  have ends := evaluator.lookup_ends name world
  generalize evaluator.lookup name world = ended at ends
  cases ends with
  | bound bound => exact .ok ⟨rfl, asks⟩
  | unasked unbound nobody =>
      refine .error ⟨rfl, ?_⟩
      simp only [stop?, nobody, Option.map_none]
      exact asks
  | refused unbound somebody refused =>
      refine .error ⟨rfl, ?_⟩
      simp only [stop?, somebody, Option.map_some]
      exact asks.refused unbound refused
  | resolved unbound somebody resolved => exact .ok ⟨rfl, asks.resolved memoizes unbound resolved⟩

theorem direct_asks (memoizes : evaluator.options.memoize = true) (start : World σ) (e : Expr)
    (depth : Nat) : (evaluator.asking start).Relates (evaluator.direct depth e) (evaluator.direct depth e) :=
  direct_relates rfl (fun name _ => lookup_asks memoizes start name) depth

/-- A statement that succeeds asks, and then it may assign. -/
theorem executeDirect_orderly (memoizes : evaluator.options.memoize = true) {statement : Statement}
    {outcome : Outcome} (came : evaluator.executeDirect statement world = .ok outcome after) :
    ∃ made : List Consultation, after.consultations = made.reverse ++ world.consultations ∧
      Orderly world.environment (made.map .consulted ++ outcome.events) after.environment none := by
  have asks := evaluator.direct_asks memoizes world statement.expr 0
  obtain ⟨value, between, found, rfl, rfl⟩ := direct_of_executeDirect_ok came
  obtain ⟨made, noted, orderly⟩ := (asks.of_ok ⟨rfl, .refl world⟩ found).2
  refine ⟨made, ?_, orderly.append (.settle _)⟩
  rw [← noted]
  cases statement <;> rfl

/-- A statement that fails only asks. -/
theorem executeDirect_asks (memoizes : evaluator.options.memoize = true) {statement : Statement}
    {error : EvalError} (came : evaluator.executeDirect statement world = .error error after) :
    world.AsksFrom (evaluator.stop? error) after := by
  have asks := evaluator.direct_asks memoizes world statement.expr 0
  exact (asks.of_error ⟨rfl, .refl world⟩ (direct_of_executeDirect_error came)).2

end Evaluator

namespace Engine

open Event

variable {engine : Engine σ}

/-- The name at which a run stops its history, if it fails for want of a value. -/
def stop? (engine : Engine σ) : EStateM.Result EngineError (World σ) Int64 → Option String
  | .error (.evaluation _ error) _ => engine.evaluator.stop? error
  | _ => none

/-- The history of a run tells all that was asked, and is orderly. -/
theorem history_orderly (memoizes : engine.options.memoize = true) (program : Program)
    (index : Nat) (last : Int64) (world : World σ) :
    (World.left (engine.runDirect index last program world)).consultations =
        (asked (engine.history program world)).reverse ++ world.consultations ∧
      Orderly world.environment (engine.history program world)
        (World.left (engine.runDirect index last program world)).environment
        (engine.stop? (engine.runDirect index last program world)) := by
  induction program generalizing index last world with
  | nil => exact ⟨rfl, .nil⟩
  | cons statement rest ih =>
      cases came : engine.evaluator.executeDirect statement world with
      | ok outcome after =>
          obtain ⟨made, noted, orderly⟩ := Evaluator.executeDirect_orderly memoizes came
          obtain ⟨notedLater, later⟩ := ih (index + 1) outcome.result after
          rw [history_of_ok came, runDirect_of_ok came, World.since_of_append noted]
          refine ⟨?_, orderly.append later⟩
          simp only [asked_append, asked_map_consulted, asked_events, List.nil_append,
            List.reverse_append, List.append_assoc]
          rw [notedLater, noted]
      | error error after =>
          obtain ⟨made, noted, orderly⟩ := Evaluator.executeDirect_asks memoizes came
          rw [history_of_error came, runDirect_of_error came, World.since_of_append noted,
            asked_map_consulted]
          exact ⟨noted, orderly⟩

/-- How a run with memoization consults its resolver: what its history says of the names that are asked for, and of the
result. -/
structure Disciplined (engine : Engine σ) (program : Program) (world : World σ) : Prop where
  /-- The history has all consultations of the run, in order. -/
  told : (World.left (engine.run program world)).consultations =
    (asked (engine.history program world)).reverse ++ world.consultations
  /-- No name is asked for twice. -/
  distinct : ((asked (engine.history program world)).map (·.name)).Nodup
  /-- No name is asked for that was bound before the run. -/
  unbound : ∀ consultation ∈ asked (engine.history program world),
    consultation.name ∉ world.environment
  /-- No name is asked for after a statement assigned to it. -/
  unassigned : ∀ before name value later,
    engine.history program world = before ++ .assigned name value :: later →
      ∀ consultation ∈ asked later, consultation.name ≠ name
  /-- All but the last answer have a value. -/
  succeeded : ∀ consultation ∈ (asked (engine.history program world)).dropLast,
    consultation.answer.value?.isSome = true
  /-- If the last answer has none, the run fails for want of that name. -/
  refused : ∀ consultation, (asked (engine.history program world)).getLast? = some consultation →
    consultation.answer.value? = none → ∃ index after,
      engine.run program world = .error (.evaluation index (.undefinedVariable consultation.name)) after
  /-- If the run fails for want of a name, that was the last to be asked for, in vain. -/
  undefined : engine.resolver.isSome = true → ∀ index name after,
    engine.run program world = .error (.evaluation index (.undefinedVariable name)) after →
      ∃ answer, (asked (engine.history program world)).getLast? = some ⟨name, answer⟩ ∧
        answer.value? = none
  /-- A name that was found is bound in the end, to what was found unless a later statement assigned to it. -/
  bound : ∀ before name answer value later,
    engine.history program world = before ++ .consulted ⟨name, answer⟩ :: later →
      answer.value? = some value →
        name ∈ (World.left (engine.run program world)).environment ∧
          ((∀ other, .assigned name other ∉ later) →
            (World.left (engine.run program world)).environment[name]? = some value)
  /-- A name that was assigned to is bound in the end, to what was assigned last. -/
  assigned : ∀ before name value later,
    engine.history program world = before ++ .assigned name value :: later →
      name ∈ (World.left (engine.run program world)).environment ∧
        ((∀ other, .assigned name other ∉ later) →
          (World.left (engine.run program world)).environment[name]? = some value)

/-- A history stops at a name exactly where the run fails for want of it. -/
theorem eq_error_of_stop? {result : EStateM.Result EngineError (World σ) Int64} {name : String}
    (stops : engine.stop? result = some name) :
    ∃ index after, result = .error (.evaluation index (.undefinedVariable name)) after := by
  unfold stop? at stops
  split at stops
  · rename_i index error after
    cases error with
    | undefinedVariable other =>
        obtain ⟨_, -, rfl⟩ := Option.map_eq_some_iff.mp stops
        exact ⟨index, after, rfl⟩
    | _ => cases stops
  · cases stops

theorem disciplined (memoizes : engine.options.memoize = true) (program : Program)
    (world : World σ) : engine.Disciplined program world := by
  obtain ⟨told, orderly⟩ := history_orderly memoizes program 0 0 world
  rw [← run_eq_runDirect] at told orderly
  refine ⟨told, orderly.nodup, ?_, ?_, orderly.succeeded, ?_, ?_, ?_, ?_⟩
  · intro consultation member bound
    exact Environment.getElem?_eq_none_iff.mp (orderly.unbound consultation member) bound
  · intro before name value later parts
    rw [parts] at orderly
    exact orderly.not_asked_after_assigned
  · intro consultation last missing
    cases stops : engine.stop? (engine.run program world) with
    | none =>
        rw [stops] at orderly
        have found := orderly.all_succeeded consultation (List.mem_of_getLast? last)
        rw [missing] at found
        cases found
    | some name =>
        rw [stops] at orderly
        obtain ⟨answer, same, -⟩ := orderly.getLast?_asked
        cases last.symm.trans same
        exact eq_error_of_stop? stops
  · intro somebody index name after failed
    have stops : engine.stop? (engine.run program world) = some name := by
      obtain ⟨resolver, asked⟩ := Option.isSome_iff_exists.mp somebody
      rw [failed]
      simp only [stop?, Evaluator.stop?, evaluator, asked, Option.map_some]
    rw [stops] at orderly
    exact orderly.getLast?_asked
  · intro before name answer value later parts found
    rw [parts] at orderly
    exact orderly.bound_resolved found
  · intro before name value later parts
    rw [parts] at orderly
    exact orderly.bound_assigned

end Engine

/-- A run of a program with memoization, before which its host may change the environment, but removes nothing. -/
structure Turn (σ : Type) where
  engine : Engine σ
  program : Program
  change : Environment → Environment
  memoizes : engine.options.memoize = true
  removesNothing : ∀ environment (name : String), name ∈ environment → name ∈ change environment

def Turn.unchanged (engine : Engine σ) (memoizes : engine.options.memoize = true) (program : Program) : Turn σ where
  engine
  program
  change := id
  memoizes
  removesNothing _ _ bound := bound

/-- A turn for which the host binds a name, to a new value if it is bound already. -/
def Turn.binding (engine : Engine σ) (memoizes : engine.options.memoize = true) (name : String) (value : Int64)
    (program : Program) : Turn σ where
  engine
  program
  change environment := environment.insert name value
  memoizes
  removesNothing _ _ bound := Std.ExtTreeMap.mem_insert.mpr (Or.inr bound)

def Turn.play (world : World σ) (turn : Turn σ) : World σ :=
  World.left (turn.engine.run turn.program
    { world with environment := turn.change world.environment })

namespace World

/-- The names for which the resolver had a value, latest first. -/
def found (world : World σ) : List String :=
  (world.consultations.filter (·.answer.value?.isSome)).map (·.name)

/-- Every name that was found is bound, and none was found twice. -/
def FoundOnce (world : World σ) : Prop :=
  world.found.Nodup ∧ ∀ name ∈ world.found, name ∈ world.environment

end World

theorem Turn.play_foundOnce {world : World σ} (once : world.FoundOnce) (turn : Turn σ) :
    (turn.play world).FoundOnce := by
  obtain ⟨distinct, bound⟩ := once
  have ran := Engine.history_orderly turn.memoizes turn.program 0 0
    { world with environment := turn.change world.environment }
  generalize turn.engine.history turn.program
    { world with environment := turn.change world.environment } = events at ran
  rw [← Engine.run_eq_runDirect] at ran
  obtain ⟨told, orderly⟩ := ran
  have foundNow : (turn.play world).found =
      (((Event.asked events).filter (·.answer.value?.isSome)).map (·.name)).reverse ++ world.found := by
    rw [World.found, play, told, List.filter_append, List.map_append, List.filter_reverse,
      List.map_reverse]
    rfl
  have asked_of_mem {name : String}
      (member : name ∈ (((Event.asked events).filter (·.answer.value?.isSome)).map (·.name)).reverse) :
      ∃ answer, ⟨name, answer⟩ ∈ Event.asked events ∧ answer.value?.isSome = true := by
    obtain ⟨⟨_, answer⟩, kept, rfl⟩ := List.mem_map.mp (List.mem_reverse.mp member)
    exact ⟨answer, List.mem_filter.mp kept⟩
  refine ⟨?_, fun name member => ?_⟩
  · rw [foundNow, List.nodup_append]
    refine ⟨?_, distinct, ?_⟩
    · refine (List.reverse_perm _).nodup_iff.mpr ?_
      exact orderly.nodup.sublist (List.filter_sublist.map _)
    · rintro name askedNow _ foundBefore rfl
      obtain ⟨answer, asked, -⟩ := asked_of_mem askedNow
      have unbound := Environment.getElem?_eq_none_iff.mp (orderly.unbound _ asked)
      exact unbound (turn.removesNothing _ name (bound name foundBefore))
  · rw [foundNow, List.mem_append] at member
    rcases member with askedNow | foundBefore
    · obtain ⟨answer, asked, found⟩ := asked_of_mem askedNow
      exact orderly.found_bound _ asked found
    · exact orderly.stays_bound (turn.removesNothing _ name (bound name foundBefore))

theorem Turn.foldl_play_foundOnce (turns : List (Turn σ)) {world : World σ} (once : world.FoundOnce) :
    (turns.foldl Turn.play world).FoundOnce := by
  induction turns generalizing world with
  | nil => exact once
  | cons turn rest ih => exact ih (turn.play_foundOnce once)

/-- With memoization on, every run consults its resolver in a disciplined way, whatever the resolver answers; and over
all runs on an environment from which nothing is removed, each name is found at most once. -/
theorem Engine.consultation_discipline :
    (∀ engine : Engine σ, engine.options.memoize = true → ∀ (program : Program) (world : World σ),
      engine.Disciplined program world) ∧
    ∀ (turns : List (Turn σ)) (environment : Environment) (memory : σ),
      (turns.foldl Turn.play ⟨environment, memory, []⟩).found.Nodup := by
  refine ⟨fun _ memoizes program world => disciplined memoizes program world, ?_⟩
  intro turns environment memory
  have start : World.FoundOnce ⟨environment, memory, []⟩ :=
    ⟨List.nodup_nil, fun _ member => absurd member List.not_mem_nil⟩
  exact (Turn.foldl_play_foundOnce turns start).1

/-- A run that asks for a second name in vain; and two runs of which the second one finds the name that the first one
found bound, so that it asks for one only. -/
theorem Engine.consultation_discipline_faulty :
    (Disciplined (⟨{}, some .scripted⟩ : Engine Script)
      [.assignment "x" (.name "a"), .expression (.binary .add (.name "a") (.name "b"))]
      ⟨∅, [("a", [.value 1, .unknown]), ("b", [.fault (.error "down")])], []⟩ ∧
    ∃ answer, (Event.asked (history (⟨{}, some .scripted⟩ : Engine Script)
      [.assignment "x" (.name "a"), .expression (.binary .add (.name "a") (.name "b"))]
      ⟨∅, [("a", [.value 1, .unknown]), ("b", [.fault (.error "down")])], []⟩)).getLast? =
        some ⟨"b", answer⟩ ∧ answer.value? = none) ∧
    ∃ names, ([Turn.unchanged ⟨{}, some .scripted⟩ rfl [.assignment "x" (.name "a")],
        .binding ⟨{}, some .scripted⟩ rfl "c" 5
          [.expression (.binary .add (.binary .add (.name "a") (.name "c")) (.name "b"))]].foldl Turn.play
      (⟨∅, [("a", [.value 1]), ("b", [.value 2]), ("c", [.value 3])], []⟩ : World Script)).found = names ∧
      names = ["b", "a"] ∧ names.Nodup := by
  refine ⟨?_, _, rfl, ?_, consultation_discipline.2 _ _ _⟩
  · have keeps := consultation_discipline.1 (⟨{}, some .scripted⟩ : Engine Script) rfl
      [.assignment "x" (.name "a"), .expression (.binary .add (.name "a") (.name "b"))]
      ⟨∅, [("a", [.value 1, .unknown]), ("b", [.fault (.error "down")])], []⟩
    have failed : ∃ after, run (⟨{}, some .scripted⟩ : Engine Script)
        [.assignment "x" (.name "a"), .expression (.binary .add (.name "a") (.name "b"))]
        ⟨∅, [("a", [.value 1, .unknown]), ("b", [.fault (.error "down")])], []⟩ =
          .error (.evaluation 1 (.undefinedVariable "b")) after := by
      rw [run_eq_runDirect]
      exact ⟨_, rfl⟩
    obtain ⟨after, failed⟩ := failed
    exact ⟨keeps, keeps.undefined rfl 1 "b" after failed⟩
  · simp only [List.foldl_cons, List.foldl_nil, Turn.play, run_eq_runDirect]
    rfl

end Abacus
