import Abacus.Proofs.RelatedRuns
import Abacus.Proofs.RunHistory
import Abacus.Resolver.Script

set_option autoImplicit false

namespace Abacus

variable {σ : Type}

/-- Why a run may have written to a name, after it got through some statements and asked for some names: one of the
statements assigned to it, or it occurs in an expression, had no binding before the run, and the value that the resolver
gave for it was kept. -/
inductive Evaluator.Wrote (evaluator : Evaluator σ) (names : List String) (before : Environment)
    (done : Program) (made : List Consultation) (name : String) : Prop
  | assigned {e : Expr} (succeeded : .assignment name e ∈ done)
  | memoized {value : Int64} (memoizes : evaluator.options.memoize = true) (occurs : name ∈ names)
      (unbound : before[name]? = none) (answered : ⟨name, .value value⟩ ∈ made)

/-- The worlds of two runs that started in the environments `before` and `other`: the same writes went over both, and
nothing else differs. -/
structure World.Overwritten (before other writes : Environment) (world twin : World σ) : Prop where
  environment : world.environment = before ∪ writes
  environmentTwin : twin.environment = other ∪ writes
  memory : twin.memory = world.memory
  consultations : twin.consultations = world.consultations

/-- The worlds of two runs, the first of which started in the world `start`, after the statements `done` and the
consultations `made`: the same writes went over both, each with its reason. -/
structure World.Framed (evaluator : Evaluator σ) (names : List String) (start : World σ)
    (other : Environment) (done : Program) (writes : Environment) (made : List Consultation)
    (world twin : World σ) : Prop where
  overwritten : World.Overwritten start.environment other writes world twin
  noted : world.consultations = made.reverse ++ start.consultations
  reasons : ∀ name ∈ writes, evaluator.Wrote names start.environment done made name

def Environment.Agree (names : List String) (first second : Environment) : Prop :=
  ∀ name ∈ names, second[name]? = first[name]?

theorem Evaluator.Wrote.mono {evaluator : Evaluator σ} {names : List String} {before : Environment}
    {done doneLater : Program} {made madeLater : List Consultation} {name : String}
    (wrote : evaluator.Wrote names before done made name) (further : done ⊆ doneLater)
    (asked : made ⊆ madeLater) : evaluator.Wrote names before doneLater madeLater name := by
  cases wrote with
  | assigned succeeded => exact .assigned (further succeeded)
  | memoized memoizes occurs unbound answered =>
      exact .memoized memoizes occurs unbound (asked answered)

theorem Environment.union_empty (environment : Environment) : environment ∪ ∅ = environment := by
  refine Std.ExtTreeMap.ext_getElem? fun name => ?_
  rw [Std.ExtTreeMap.getElem?_union, Std.ExtTreeMap.getElem?_empty, Option.none_or]

theorem Environment.insert_union (before writes : Environment) (name : String) (value : Int64) :
    (before ∪ writes).insert name value = before ∪ writes.insert name value :=
  (Std.ExtTreeMap.union_insert_right_eq_insert_union (p := ⟨name, value⟩)).symm

namespace World.Framed

variable {evaluator : Evaluator σ} {names : List String} {start world twin : World σ}
  {other writes : Environment} {done : Program} {made : List Consultation} {name : String}

theorem refl (evaluator : Evaluator σ) (names : List String) (start : World σ)
    (other : Environment) :
    Framed evaluator names start other [] ∅ [] start { start with environment := other } where
  overwritten := ⟨(Environment.union_empty _).symm, (Environment.union_empty _).symm, rfl, rfl⟩
  noted := rfl
  reasons _ written := absurd written Std.ExtTreeMap.not_mem_empty

/-- A name on which the environments agreed before the runs is bound alike. -/
theorem bound_alike (framed : Framed evaluator names start other done writes made world twin)
    (agree : Environment.Agree names start.environment other) (occurs : name ∈ names) :
    twin.environment[name]? = world.environment[name]? := by
  rw [framed.overwritten.environment, framed.overwritten.environmentTwin,
    Std.ExtTreeMap.getElem?_union, Std.ExtTreeMap.getElem?_union, agree name occurs]

/-- What is not bound after the writes was not bound before them. -/
theorem unbound_before (framed : Framed evaluator names start other done writes made world twin)
    (unbound : world.environment[name]? = none) : start.environment[name]? = none := by
  rw [framed.overwritten.environment, Std.ExtTreeMap.getElem?_union, Option.or_eq_none_iff] at unbound
  exact unbound.2

theorem asked (framed : Framed evaluator names start other done writes made world twin)
    (resolver : Resolver σ) (name : String) :
    Framed evaluator names start other done writes
      (made ++ [⟨name, (resolver.resolve name world.memory).1⟩])
      (world.asked resolver name) (twin.asked resolver name) := by
  obtain ⟨⟨environment, environmentTwin, memory, consultations⟩, noted, reasons⟩ := framed
  refine ⟨⟨environment, environmentTwin, ?_, ?_⟩, ?_, fun name written => ?_⟩
  · simp only [World.asked, memory]
  · simp only [World.asked, memory, consultations]
  · simp only [World.asked, noted, List.reverse_append, List.reverse_singleton, List.cons_append,
      List.nil_append]
  · exact (reasons name written).mono (List.Subset.refl _) (List.subset_append_left _ _)

/-- One more write on both sides. -/
theorem insert (framed : Framed evaluator names start other done writes made world twin)
    {doneLater : Program} (further : done ⊆ doneLater) {value : Int64}
    (reason : evaluator.Wrote names start.environment doneLater made name) :
    Framed evaluator names start other doneLater (writes.insert name value) made
      { world with environment := world.environment.insert name value }
      { twin with environment := twin.environment.insert name value } := by
  obtain ⟨⟨environment, environmentTwin, memory, consultations⟩, noted, reasons⟩ := framed
  refine ⟨⟨?_, ?_, memory, consultations⟩, noted, fun written member => ?_⟩
  · rw [environment, Environment.insert_union]
  · rw [environmentTwin, Environment.insert_union]
  · rcases Std.ExtTreeMap.mem_insert.mp member with same | member
    · rwa [← Std.compare_eq_iff_eq.mp same]
    · exact (reasons written member).mono further (List.Subset.refl _)

theorem memoized (framed : Framed evaluator names start other done writes made world twin)
    {value : Int64} (occurs : name ∈ names) (unbound : start.environment[name]? = none)
    (answered : ⟨name, .value value⟩ ∈ made) :
    ∃ writes, Framed evaluator names start other done writes made
      (world.memoized evaluator name value) (twin.memoized evaluator name value) := by
  unfold World.memoized
  by_cases memoizes : evaluator.options.memoize = true
  · rw [if_pos memoizes, if_pos memoizes]
    have reason : evaluator.Wrote names start.environment done made name :=
      .memoized memoizes occurs unbound answered
    exact ⟨writes.insert name value, framed.insert (List.Subset.refl _) reason⟩
  · rw [if_neg memoizes, if_neg memoizes]
    exact ⟨writes, framed⟩

/-- A statement that succeeds adds at most its own assignment. -/
theorem settle (framed : Framed evaluator names start other done writes made world twin)
    (statement : Statement) (value : Int64) :
    ∃ writes, Framed evaluator names start other (done ++ [statement]) writes made
      ((statement.outcome value).settle world) ((statement.outcome value).settle twin) := by
  have further : done ⊆ done ++ [statement] := List.subset_append_left _ _
  cases statement with
  | expression e =>
      refine ⟨writes, framed.overwritten, framed.noted, fun name written => ?_⟩
      exact (framed.reasons name written).mono further (List.Subset.refl _)
  | assignment name e =>
      have assigned : Statement.assignment name e ∈ done ++ [.assignment name e] :=
        List.mem_append_right _ List.mem_cons_self
      exact ⟨writes.insert name value, framed.insert further (.assigned assigned)⟩

end World.Framed

def World.Beside (evaluator : Evaluator σ) (names : List String) (start : World σ)
    (other : Environment) (done : Program) (world twin : World σ) : Prop :=
  ∃ writes made, World.Framed evaluator names start other done writes made world twin

section Runs

variable {evaluator : Evaluator σ} {names : List String} {start world twin : World σ}
  {other : Environment} {done : Program}

/-- A lookup of a name on which the environments agree goes alike. -/
theorem Evaluator.lookup_beside (agree : Environment.Agree names start.environment other)
    {name : String} (occurs : name ∈ names) :
    (Coupling.always (World.Beside evaluator names start other done)).Relates
      (evaluator.lookup name) (evaluator.lookup name) := by
  rintro world twin ⟨writes, made, framed⟩
  have alike := framed.bound_alike agree occurs
  cases bound : world.environment[name]? with
  | some value =>
      rw [bound] at alike
      rw [lookup_bound bound, lookup_bound alike]
      exact .ok ⟨writes, made, framed⟩
  | none =>
      rw [bound] at alike
      cases somebody : evaluator.resolver with
      | none =>
          rw [lookup_unasked bound somebody, lookup_unasked alike somebody]
          exact .error ⟨writes, made, framed⟩
      | some resolver =>
          have asked := framed.asked resolver name
          have givenAlike : (resolver.resolve name twin.memory).1.value? =
              (resolver.resolve name world.memory).1.value? := by
            rw [framed.overwritten.memory]
          cases given : (resolver.resolve name world.memory).1.value? with
          | none =>
              rw [lookup_refused bound somebody given,
                lookup_refused alike somebody (givenAlike.trans given)]
              exact .error ⟨writes, _, asked⟩
          | some value =>
              rw [lookup_resolved bound somebody given,
                lookup_resolved alike somebody (givenAlike.trans given)]
              rw [Answer.eq_value_of_value? given] at asked
              have answered : ⟨name, .value value⟩ ∈ made ++ [⟨name, .value value⟩] :=
                List.mem_append_right _ List.mem_cons_self
              obtain ⟨kept, framed⟩ := asked.memoized occurs (framed.unbound_before bound) answered
              exact .ok ⟨kept, _, framed⟩

/-- A statement goes alike. If it fails it writes nothing of its own. -/
theorem Evaluator.executeDirect_beside (agree : Environment.Agree names start.environment other)
    {statement : Statement} (occur : statement.expr.names ⊆ names)
    (beside : World.Beside evaluator names start other done world twin) :
    SameEnd (World.Beside evaluator names start other (done ++ [statement]))
      (fun _ => World.Beside evaluator names start other done)
      (evaluator.executeDirect statement world) (evaluator.executeDirect statement twin) := by
  have same := direct_relates rfl (fun name member => lookup_beside agree (occur member)) 0
    world twin beside
  rw [executeDirect_eq, executeDirect_eq]
  generalize evaluator.direct 0 statement.expr world = left at same
  generalize evaluator.direct 0 statement.expr twin = right at same
  cases same with
  | ok beside =>
      obtain ⟨writes, made, framed⟩ := beside
      obtain ⟨written, framed⟩ := framed.settle statement _
      exact .ok ⟨written, made, framed⟩
  | error beside => exact .error beside

end Runs

/-- The statements of a program that a run got through: all of them, or those before the one that failed. -/
def Program.succeeded (program : Program) : EStateM.Result EngineError (World σ) Int64 → Program
  | .ok _ _ => program
  | .error (.evaluation index _) _ => program.take index
  | .error (.parse _ _) _ => []

namespace Engine

variable {engine : Engine σ} {names : List String} {start world twin : World σ}
  {other : Environment}

/-- Runs go alike from statement to statement, and what they wrote has its reasons in what they got through. -/
theorem runDirect_beside (agree : Environment.Agree names start.environment other)
    {done rest : Program} (last : Int64) (occur : Program.names rest ⊆ names)
    (beside : World.Beside engine.evaluator names start other done world twin) :
    ∃ writes,
      SameEnd (World.Overwritten start.environment other writes)
        (fun _ => World.Overwritten start.environment other writes)
        (engine.runDirect done.length last rest world) (engine.runDirect done.length last rest twin) ∧
      ∀ name ∈ writes, engine.evaluator.Wrote names start.environment
        ((done ++ rest).succeeded (engine.runDirect done.length last rest world))
        (start.since (World.left (engine.runDirect done.length last rest world))) name := by
  induction rest generalizing done last world twin with
  | nil =>
      obtain ⟨writes, made, framed⟩ := beside
      refine ⟨writes, .ok framed.overwritten, fun name written => ?_⟩
      rw [List.append_nil]
      simp only [runDirect, World.left, World.since_of_append framed.noted]
      exact framed.reasons name written
  | cons statement rest ih =>
      have here : statement.expr.names ⊆ names := fun name member =>
        occur (List.mem_append_left _ member)
      have later : Program.names rest ⊆ names := fun name member =>
        occur (List.mem_append_right _ member)
      have same := Evaluator.executeDirect_beside agree here beside
      simp only [runDirect]
      generalize engine.evaluator.executeDirect statement world = left at same
      generalize engine.evaluator.executeDirect statement twin = right at same
      cases same with
      | @ok outcome after afterTwin beside =>
          have goesOn := ih outcome.result later beside
          rwa [List.length_append, List.length_singleton, List.append_assoc] at goesOn
      | error beside =>
          obtain ⟨writes, made, framed⟩ := beside
          refine ⟨writes, .error framed.overwritten, fun name written => ?_⟩
          simp only [Program.succeeded, World.left, World.since_of_append framed.noted,
            List.take_left]
          exact framed.reasons name written

/-- A run depends on no binding but those of the names in the expressions of the program, and it touches no binding but
those of some writes: names that statements assigned to, and, where values of the resolver are kept, names in the
expressions that had no binding and got a value. A statement that fails has not assigned. -/
theorem run_frame (program : Program) (world : World σ)
    (agree : Environment.Agree program.names world.environment other) :
    ∃ writes : Environment,
      SameEnd (World.Overwritten world.environment other writes)
        (fun _ => World.Overwritten world.environment other writes)
        (engine.run program world) (engine.run program { world with environment := other }) ∧
      ∀ name ∈ writes, engine.evaluator.Wrote program.names world.environment
        (program.succeeded (engine.run program world))
        (world.since (World.left (engine.run program world))) name := by
  have beside : World.Beside engine.evaluator program.names world other [] world
      { world with environment := other } :=
    ⟨∅, [], .refl engine.evaluator program.names world other⟩
  rw [run_eq_runDirect]
  exact runDirect_beside agree 0 (List.Subset.refl _) beside

/-- A binding of `y` plays no part in a run that only assigns to it, and that assignment fails. -/
theorem run_frame_division :
    Environment.Agree
      (Program.names [.assignment "x" (.name "a"), .assignment "y" (.binary .div (.name "x") (.number 0))])
      ∅ ((∅ : Environment).insert "y" 7) ∧
    ∃ writes : Environment,
      SameEnd (World.Overwritten ∅ ((∅ : Environment).insert "y" 7) writes)
        (fun _ => World.Overwritten ∅ ((∅ : Environment).insert "y" 7) writes)
        (run (⟨{}, some .scripted⟩ : Engine Script)
          [.assignment "x" (.name "a"), .assignment "y" (.binary .div (.name "x") (.number 0))]
          ⟨∅, [("a", [.value 1])], []⟩)
        (run (⟨{}, some .scripted⟩ : Engine Script)
          [.assignment "x" (.name "a"), .assignment "y" (.binary .div (.name "x") (.number 0))]
          ⟨(∅ : Environment).insert "y" 7, [("a", [.value 1])], []⟩) ∧
      ∀ name ∈ writes, name = "x" ∨ name = "a" := by
  have agree : Environment.Agree
      (Program.names [.assignment "x" (.name "a"), .assignment "y" (.binary .div (.name "x") (.number 0))])
      ∅ ((∅ : Environment).insert "y" 7) := by
    intro name member
    rw [Environment.getElem?_insert, if_neg]
    rintro rfl
    revert member
    decide
  have failed : ∃ after, run (⟨{}, some .scripted⟩ : Engine Script)
      [.assignment "x" (.name "a"), .assignment "y" (.binary .div (.name "x") (.number 0))]
      ⟨∅, [("a", [.value 1])], []⟩ = .error (.evaluation 1 (.divisionByZero .div)) after := by
    rw [run_eq_runDirect]
    exact ⟨_, rfl⟩
  obtain ⟨after, failed⟩ := failed
  obtain ⟨writes, same, reasons⟩ := @run_frame Script ⟨{}, some .scripted⟩ _ _
    ⟨∅, [("a", [.value 1])], []⟩ agree
  refine ⟨agree, writes, same, fun name written => ?_⟩
  cases reasons name written with
  | assigned succeeded =>
      rw [failed] at succeeded
      cases succeeded with
      | head => exact Or.inl rfl
      | tail _ other => cases other
  | memoized _ occurs _ _ =>
      have read : name = "a" ∨ name = "x" := by
        simpa [Program.names, Expr.names, Statement.expr] using occurs
      exact read.symm

end Engine

end Abacus
