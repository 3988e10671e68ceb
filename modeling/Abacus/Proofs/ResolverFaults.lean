import Abacus.Proofs.EvaluatorReuse

set_option autoImplicit false

namespace Abacus

variable {σ τ : Type}

theorem Consultation.warning?_eq_none {consultation : Consultation}
    (sound : consultation.answer.isFault = false) : consultation.warning? = none := by
  obtain ⟨name, answer⟩ := consultation
  cases answer with
  | fault fault => cases sound
  | _ => rfl

/-- A world warns of the faults that its resolver met, one by one. -/
theorem World.HasAsked.map_name_warnings {memory : σ} {names : List String} {world : World σ}
    {resolver : Resolver σ} (asked : world.HasAsked memory names (some resolver)) :
    world.warnings.map (·.name) =
      ((resolver.transcript memory names).filter (·.answer.isFault)).map (·.name) := by
  rw [World.warnings, asked.2]
  induction resolver.transcript memory names with
  | nil => rfl
  | cons consultation rest ih =>
      obtain ⟨name, answer⟩ := consultation
      cases answer with
      | fault fault => exact congrArg (name :: ·) ih
      | _ => exact ih

theorem World.HasAsked.warnings_eq_nil {resolver : Resolver σ} {memory : σ} {calm : Resolver τ}
    {calmMemory : τ} (calms : resolver.Calms memory calm calmMemory) {names : List String}
    {world : World τ} (asked : world.HasAsked calmMemory names (some calm)) : world.warnings = [] := by
  rw [World.warnings, asked.2, List.filterMap_eq_nil_iff]
  intro consultation member
  exact Consultation.warning?_eq_none (calms.isFault_of_mem member)

namespace Resolver.Calms

/-- Where faults are replaced, the values stay the same. -/
theorem valueAfter?_eq {resolver : Resolver σ} {memory : σ} {calm : Resolver τ} {calmMemory : τ}
    (calms : resolver.Calms memory calm calmMemory) (names : List String) (name : String) :
    valueAfter? (some calm) calmMemory names name = valueAfter? (some resolver) memory names name := by
  rw [valueAfter?, valueAfter?, calms, Answer.value?_calmed]

end Resolver.Calms

namespace World

theorem warnings_asked (resolver : Resolver σ) (name : String) (world : World σ) :
    (world.asked resolver name).warnings = world.warnings ++
      (Consultation.warning? ⟨name, (resolver.resolve name world.memory).1⟩).toList := by
  simp only [warnings, asked, List.reverse_cons, List.filterMap_append, List.filterMap_cons,
    List.filterMap_nil]
  cases Consultation.warning? ⟨name, (resolver.resolve name world.memory).1⟩ <;> rfl

@[simp] theorem warnings_memoized (evaluator : Evaluator σ) (name : String) (value : Int64)
    (world : World σ) : (world.memoized evaluator name value).warnings = world.warnings := by
  rw [warnings, consultations_memoized, warnings]

/-- No warning was given, but for one of a name if evaluation failed for want of it. -/
def WarnsOf (error : EvalError) (world : World σ) : Prop :=
  world.warnings = [] ∨ ∃ warning, world.warnings = [warning] ∧ error = .undefinedVariable warning.name

end World

def Coupling.unwarned : Coupling σ σ :=
  .alone (fun world => world.warnings = []) World.WarnsOf fun _ quiet => Or.inl quiet

namespace Evaluator

theorem lookup_unwarned (evaluator : Evaluator σ) (name : String) :
    Coupling.unwarned.Relates (evaluator.lookup name) (evaluator.lookup name) := by
  rintro world _ ⟨rfl, quiet⟩
  have ends := evaluator.lookup_ends name world
  generalize evaluator.lookup name world = ended at ends
  cases ends with
  | bound bound => exact .ok ⟨rfl, quiet⟩
  | unasked unbound nobody => exact .error ⟨rfl, Or.inl quiet⟩
  | @refused resolver unbound somebody refused =>
      have warned := world.warnings_asked resolver name
      rw [quiet, List.nil_append] at warned
      refine .error ⟨rfl, ?_⟩
      cases answer : (resolver.resolve name world.memory).1 with
      | fault fault =>
          rw [answer] at warned
          exact Or.inr ⟨⟨name, fault⟩, warned, rfl⟩
      | unknown =>
          rw [answer] at warned
          exact Or.inl warned
      | value value =>
          rw [answer] at refused
          cases refused
  | @resolved resolver value unbound somebody resolved =>
      have warned := world.warnings_asked resolver name
      rw [quiet, List.nil_append, Answer.eq_value_of_value? resolved] at warned
      exact .ok ⟨rfl, (World.warnings_memoized evaluator name value _).trans warned⟩

end Evaluator

/-- A run gives no more than one warning, and ends with it. -/
theorem Engine.run_warns_once (engine : Engine σ) (program : Program) {world : World σ}
    (quiet : world.warnings = []) :
    (World.left (engine.run program world)).warnings = [] ∨
      ∃ warning index after, (World.left (engine.run program world)).warnings = [warning] ∧
        engine.run program world = .error (.evaluation index (.undefinedVariable warning.name)) after := by
  have statements : ∀ statement ∈ program, Coupling.unwarned.Relates
      (engine.evaluator.executeDirect statement) (engine.evaluator.executeDirect statement) := by
    intro statement _
    refine Evaluator.executeDirect_relates rfl (fun name _ => engine.evaluator.lookup_unwarned name) ?_
    rintro name value world _ ⟨rfl, quiet⟩
    exact .ok ⟨rfl, quiet⟩
  have ends : SameEnd (Coupling.unwarned (σ := σ)).during _ (engine.runDirect 0 0 program world)
      (engine.runDirect 0 0 program world) := runDirect_couples statements ⟨rfl, quiet⟩
  rw [run_eq_runDirect]
  generalize engine.runDirect 0 0 program world = ended at ends
  cases ends with
  | ok related => exact Or.inl related.2
  | @error error after _ related =>
      obtain ⟨index, fault, rfl, -, warns⟩ := related
      rcases warns with quiet | ⟨warning, warned, rfl⟩
      · exact Or.inl quiet
      · exact Or.inr ⟨warning, index, after, warned, rfl⟩

/-- Two resolvers give the same values: statements come to the same, going on after errors, and the worlds are alike. -/
theorem Evaluator.executeAll_alike {resolver : Option (Resolver σ)} {memory : σ}
    {other : Option (Resolver τ)} {otherMemory : τ} (options : EvalOptions)
    (values : ∀ names name, Resolver.valueAfter? other otherMemory names name =
      Resolver.valueAfter? resolver memory names name)
    (program : Program) (environment : Environment) :
    (executeAll ⟨options, other⟩ program { environment, memory := otherMemory }).1 =
        (executeAll ⟨options, resolver⟩ program { environment, memory }).1 ∧
      World.Alike resolver memory other otherMemory
        (executeAll ⟨options, resolver⟩ program { environment, memory }).2.toWorld
        (executeAll ⟨options, other⟩ program { environment, memory := otherMemory }).2.toWorld := by
  -- each statement on a machine of its own, so that only worlds need comparing
  have first := executeAll_eq ⟨options, resolver⟩ program { environment, memory }
  have second := executeAll_eq ⟨options, other⟩ program { environment, memory := otherMemory }
  rw [first, second]
  exact executeApart_relates (fun statement _ => executeDirect_alike options values statement)
    (.start environment resolver memory other otherMemory)

/-- Faults of a resolver have no effect but warnings: under a resolver that calms it, which says instead that the name
is not known, all statements come to the same, the environment and the names asked for are the same, and there is one
warning for each fault, in order, against none. A run gives no more than one warning, and then fails for want of that
name. A resolver that never has a value has the effect of none at all. -/
theorem Engine.resolver_faults_isolated (options : EngineOptions) (program : Program)
    (environment : Environment) (resolver : Resolver σ) (memory : σ) :
    (∀ (τ : Type) (calm : Resolver τ) (calmMemory : τ), resolver.Calms memory calm calmMemory →
      let faulty := Evaluator.executeAll ⟨options.toEvalOptions, some resolver⟩ program
        { environment, memory }
      let calmed := Evaluator.executeAll ⟨options.toEvalOptions, some calm⟩ program
        { environment, memory := calmMemory }
      calmed.1 = faulty.1 ∧ calmed.2.environment = faulty.2.environment ∧
        calmed.2.lookups = faulty.2.lookups ∧ calmed.2.warnings = [] ∧
        faulty.2.warnings.map (·.name) =
          ((resolver.transcript memory faulty.2.lookups).filter (·.answer.isFault)).map (·.name)) ∧
    (let ended := run ⟨options, some resolver⟩ program { environment, memory };
      (World.left ended).warnings = [] ∨
        ∃ warning index after, (World.left ended).warnings = [warning] ∧
          ended = .error (.evaluation index (.undefinedVariable warning.name)) after) ∧
    ((∀ names name, (resolver.answerAfter memory names name).value? = none) →
      ∀ (τ : Type) (idle : τ),
        let asking := Evaluator.executeAll ⟨options.toEvalOptions, some resolver⟩ program
          { environment, memory }
        let alone := Evaluator.executeAll ⟨options.toEvalOptions, none⟩ program
          { environment, memory := idle }
        alone.1 = asking.1 ∧ alone.2.environment = asking.2.environment) := by
  refine ⟨?_, run_warns_once _ program rfl, ?_⟩
  · intro τ calm calmMemory calms faulty calmed
    obtain ⟨outcomes, same, names, asked, askedCalm⟩ := Evaluator.executeAll_alike
      options.toEvalOptions calms.valueAfter?_eq program environment
    refine ⟨outcomes, same, ?_, askedCalm.warnings_eq_nil calms, ?_⟩
    · exact askedCalm.lookups_eq.trans asked.lookups_eq.symm
    · rw [asked.lookups_eq]
      exact asked.map_name_warnings
  · intro never τ idle asking alone
    have values (names : List String) (name : String) :
        Resolver.valueAfter? (none : Option (Resolver τ)) idle names name =
          Resolver.valueAfter? (some resolver) memory names name := (never names name).symm
    obtain ⟨outcomes, alike⟩ := Evaluator.executeAll_alike options.toEvalOptions values program environment
    exact ⟨outcomes, alike.environment⟩

/-- Two statements fail for want of a name at which the resolver breaks down; the one between them does not ask. -/
theorem Engine.resolver_faults_isolated_scripted :
    Resolver.scripted.Calms [("a", [.fault (.panic none)])] Resolver.scripted.calmed
        [("a", [.fault (.panic none)])] ∧
    (∀ names name, (Resolver.scripted.answerAfter [("a", [.fault (.panic none)])] names name).value? =
      none) ∧
    (let program : Program := [.expression (.binary .add (.name "a") (.number 1)),
        .assignment "b" (.number 2), .expression (.name "a")];
      let faulty := Evaluator.executeAll ⟨{}, some Resolver.scripted⟩ program
        { environment := ∅, memory := [("a", [.fault (.panic none)])] };
      let calmed := Evaluator.executeAll ⟨{}, some Resolver.scripted.calmed⟩ program
        { environment := ∅, memory := [("a", [.fault (.panic none)])] };
      let alone := Evaluator.executeAll (⟨{}, none⟩ : Evaluator Unit) program
        { environment := ∅, memory := () };
      calmed.1 = faulty.1 ∧ alone.1 = faulty.1 ∧ calmed.2.warnings = [] ∧
        faulty.2.warnings.map (·.name) = ["a", "a"]) := by
  have calms := Resolver.scripted.calms_calmed [("a", [.fault (.panic none)])]
  have stable : Resolver.IsStable (fun name => if "a" = name then .fault (.panic none) else .unknown)
      (some Resolver.scripted) [("a", [.fault (.panic none)])] := by
    refine .of_fixed fun name => ?_
    by_cases same : "a" = name
    · simp only [Resolver.scripted, Script.next, if_pos same]
    · simp only [Resolver.scripted, Script.next, if_neg same]
  have never (names : List String) (name : String) :
      (Resolver.scripted.answerAfter [("a", [.fault (.panic none)])] names name).value? = none := by
    rw [Resolver.answerAfter, stable names name]
    dsimp only
    split <;> rfl
  obtain ⟨isolated, -, idle⟩ := resolver_faults_isolated {}
    [.expression (.binary .add (.name "a") (.number 1)), .assignment "b" (.number 2),
      .expression (.name "a")] ∅ Resolver.scripted [("a", [.fault (.panic none)])]
  obtain ⟨outcomes, -, -, quiet, warned⟩ := isolated _ _ _ calms
  obtain ⟨outcomesAlone, -⟩ := idle never Unit ()
  refine ⟨calms, never, outcomes, outcomesAlone, quiet, warned.trans ?_⟩
  cbv

end Abacus
