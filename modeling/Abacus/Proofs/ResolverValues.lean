import Abacus.Proofs.RelatedRuns
import Abacus.Resolver.Script

set_option autoImplicit false

namespace Abacus

variable {σ τ : Type}

/-- The resolver had the memory, was then asked for the names, and what it said is all that is noted. -/
def World.HasAsked (memory : σ) (names : List String) (world : World σ) : Option (Resolver σ) → Prop
  | none => world.memory = memory ∧ world.consultations = []
  | some resolver =>
    world.memory = resolver.memoryAfter memory names ∧
      world.consultations.reverse = resolver.transcript memory names

namespace World.HasAsked

variable {memory : σ} {names : List String} {world : World σ} {resolver : Option (Resolver σ)}

theorem start (environment : Environment) (memory : σ) (resolver : Option (Resolver σ)) :
    HasAsked memory [] { environment, memory } resolver := by
  cases resolver with
  | none => exact ⟨rfl, rfl⟩
  | some resolver => exact ⟨rfl, rfl⟩

/-- Only the memory and what is noted tell what was asked. -/
theorem of_same {other : World σ} (asked : world.HasAsked memory names resolver)
    (sameMemory : other.memory = world.memory)
    (sameNotes : other.consultations = world.consultations) :
    other.HasAsked memory names resolver := by
  cases resolver with
  | none => exact ⟨sameMemory.trans asked.1, sameNotes.trans asked.2⟩
  | some resolver =>
      refine ⟨sameMemory.trans asked.1, ?_⟩
      rw [sameNotes]
      exact asked.2

theorem lookups_eq {resolver : Resolver σ} (asked : world.HasAsked memory names (some resolver)) :
    world.lookups = names := by
  rw [World.lookups, asked.2, Resolver.map_name_transcript]

/-- To consult a resolver gives the value that it has by then, and notes the question. -/
theorem consult (evaluator : Evaluator σ) (asked : world.HasAsked memory names evaluator.resolver)
    (name : String) :
    ∃ after, evaluator.consult name world =
        .ok (Resolver.valueAfter? evaluator.resolver memory names name) after ∧
      after.environment = world.environment ∧
      after.HasAsked memory (names ++ [name]) evaluator.resolver := by
  cases somebody : evaluator.resolver with
  | none =>
      rw [somebody] at asked
      exact ⟨world, Evaluator.consult_nobody somebody, rfl, asked⟩
  | some resolver =>
      rw [somebody] at asked
      obtain ⟨remembered, noted⟩ := asked
      refine ⟨world.asked resolver name, ?_, rfl, ?_, ?_⟩
      · rw [evaluator.consult_somebody somebody, remembered]
        rfl
      · rw [Resolver.memoryAfter_concat, ← remembered]
        rfl
      · rw [Resolver.transcript_concat, ← noted, Resolver.answerAfter, ← remembered]
        exact List.reverse_cons

end World.HasAsked

/-- The worlds of two runs with resolvers that were asked for the same names and nothing else: the bindings are the
same. -/
structure World.Alike (resolver : Option (Resolver σ)) (memory : σ) (other : Option (Resolver τ))
    (otherMemory : τ) (world : World σ) (twin : World τ) : Prop where
  environment : twin.environment = world.environment
  asked : ∃ names, world.HasAsked memory names resolver ∧ twin.HasAsked otherMemory names other

section Alike

variable {resolver : Option (Resolver σ)} {memory : σ} {other : Option (Resolver τ)} {otherMemory : τ}

namespace World.Alike

theorem start (environment : Environment) (resolver : Option (Resolver σ)) (memory : σ)
    (other : Option (Resolver τ)) (otherMemory : τ) :
    Alike resolver memory other otherMemory { environment, memory }
      { environment, memory := otherMemory } where
  environment := rfl
  asked := ⟨[], .start environment memory resolver, .start environment otherMemory other⟩

theorem insert {world : World σ} {twin : World τ}
    (alike : Alike resolver memory other otherMemory world twin) (name : String) (value : Int64) :
    Alike resolver memory other otherMemory
      { world with environment := world.environment.insert name value }
      { twin with environment := twin.environment.insert name value } := by
  obtain ⟨same, names, asked, askedTwin⟩ := alike
  refine ⟨?_, names, asked.of_same rfl rfl, askedTwin.of_same rfl rfl⟩
  rw [same]

/-- What a resolver gave is kept in both or in neither. -/
theorem memoized {world : World σ} {twin : World τ} {options : EvalOptions}
    (alike : Alike resolver memory other otherMemory world twin) (name : String) (value : Int64) :
    Alike resolver memory other otherMemory (world.memoized ⟨options, resolver⟩ name value)
      (twin.memoized ⟨options, other⟩ name value) := by
  unfold World.memoized
  split
  · exact alike.insert name value
  · exact alike

end World.Alike

namespace Evaluator

variable (options : EvalOptions)
  (values : ∀ names name, Resolver.valueAfter? other otherMemory names name =
    Resolver.valueAfter? resolver memory names name)

include values

theorem lookup_alike (name : String) :
    (Coupling.always (World.Alike resolver memory other otherMemory)).Relates
      (lookup ⟨options, resolver⟩ name) (lookup ⟨options, other⟩ name) := by
  intro world twin alike
  obtain ⟨same, names, asked, askedTwin⟩ := alike
  cases bound : world.environment[name]? with
  | some value =>
      have boundTwin : twin.environment[name]? = some value := by rw [same, bound]
      rw [lookup_bound bound, lookup_bound boundTwin]
      exact .ok ⟨same, names, asked, askedTwin⟩
  | none =>
      have unboundTwin : twin.environment[name]? = none := by rw [same, bound]
      obtain ⟨after, consulted, kept, askedAfter⟩ :=
        World.HasAsked.consult ⟨options, resolver⟩ asked name
      obtain ⟨afterTwin, consultedTwin, keptTwin, askedAfterTwin⟩ :=
        World.HasAsked.consult ⟨options, other⟩ askedTwin name
      have alikeAfter : World.Alike resolver memory other otherMemory after afterTwin :=
        ⟨by rw [kept, keptTwin, same], names ++ [name], askedAfter, askedAfterTwin⟩
      dsimp only at consulted consultedTwin
      rw [values] at consultedTwin
      cases given : Resolver.valueAfter? resolver memory names name with
      | none =>
          rw [given] at consulted consultedTwin
          rw [lookup_missing bound consulted, lookup_missing unboundTwin consultedTwin]
          exact .error alikeAfter
      | some value =>
          rw [given] at consulted consultedTwin
          rw [lookup_found bound consulted, lookup_found unboundTwin consultedTwin]
          exact .ok (alikeAfter.memoized name value)

/-- Statements come to the same under resolvers that give the same values. -/
theorem executeDirect_alike (statement : Statement) :
    (Coupling.always (World.Alike resolver memory other otherMemory)).Relates
      (executeDirect ⟨options, resolver⟩ statement) (executeDirect ⟨options, other⟩ statement) := by
  have limits : (⟨options, resolver⟩ : Evaluator σ).options.depthLimit =
      (⟨options, other⟩ : Evaluator τ).options.depthLimit := rfl
  refine executeDirect_relates limits (fun name _ => lookup_alike options values name) ?_
  intro name value world twin alike
  exact .ok (alike.insert name value)

end Evaluator

end Alike

end Abacus
