import Abacus.Proofs.RelatedRuns
import Abacus.Resolver.Script
import Mathlib.Data.List.Forall2

set_option autoImplicit false

namespace Abacus

variable {σ : Type}

/-- What an environment in which values of the resolver are kept may bind, against one in which they are not: all that
the plain one binds, and beyond it only values that the resolver gives. -/
structure Environment.Memoizes (answers : String → Answer) (memoized plain : Environment) : Prop where
  keeps : ∀ (name : String) (value : Int64), plain[name]? = some value → memoized[name]? = some value
  extra : ∀ (name : String) (value : Int64), memoized[name]? = some value → plain[name]? = none →
    answers name = .value value

namespace Environment.Memoizes

variable {answers : String → Answer} {memoized plain : Environment}

theorem refl (answers : String → Answer) (plain : Environment) : Memoizes answers plain plain where
  keeps _ _ bound := bound
  extra name value bound unbound := by
    rw [unbound] at bound
    cases bound

/-- An assignment binds its name in both, whatever was kept under it. -/
theorem insert (memoizes : Memoizes answers memoized plain) (name : String) (value : Int64) :
    Memoizes answers (memoized.insert name value) (plain.insert name value) where
  keeps other found bound := by
    rw [getElem?_insert] at bound ⊢
    by_cases same : name = other
    · rwa [if_pos same] at bound ⊢
    · rw [if_neg same] at bound ⊢
      exact memoizes.keeps other found bound
  extra other found bound unbound := by
    rw [getElem?_insert] at bound unbound
    by_cases same : name = other
    · rw [if_pos same] at unbound
      cases unbound
    · rw [if_neg same] at bound unbound
      exact memoizes.extra other found bound unbound

/-- A value of the resolver is kept under a name that nothing else binds. -/
theorem keep (memoizes : Memoizes answers memoized plain) {name : String} {value : Int64}
    (unbound : plain[name]? = none) (resolved : answers name = .value value) :
    Memoizes answers (memoized.insert name value) plain where
  keeps other found bound := by
    have apart : name ≠ other := by
      rintro rfl
      rw [unbound] at bound
      cases bound
    rw [getElem?_insert, if_neg apart]
    exact memoizes.keeps other found bound
  extra other found bound absent := by
    rw [getElem?_insert] at bound
    by_cases same : name = other
    · rw [if_pos same] at bound
      cases bound
      rw [← same]
      exact resolved
    · rw [if_neg same] at bound
      exact memoizes.extra other found bound absent

end Environment.Memoizes

/-- The worlds of two runs, the first of which keeps the values of a resolver that is stable in both. -/
structure World.Memoizes (resolver : Option (Resolver σ)) (answers : String → Answer)
    (memoized plain : World σ) : Prop where
  environments : memoized.environment.Memoizes answers plain.environment
  stable : Resolver.IsStable answers resolver memoized.memory
  stablePlain : Resolver.IsStable answers resolver plain.memory

structure Call where
  source : String
  nestingLimit : Nat := defaultNestingLimit
  depthLimit : Nat := 1000

def Call.options (call : Call) (memoize : Bool) : EngineOptions where
  nestingLimit := call.nestingLimit
  depthLimit := call.depthLimit
  memoize

section Runs

variable {resolver : Option (Resolver σ)} {answers : String → Answer}

/-- A lookup finds the same value with memoization and without, be it bound, kept or resolved. -/
theorem Evaluator.lookup_memoizes (limit : Nat) (name : String) :
    (Coupling.always (World.Memoizes resolver answers)).Relates
      (lookup ⟨{ depthLimit := limit, memoize := true }, resolver⟩ name)
      (lookup ⟨{ depthLimit := limit, memoize := false }, resolver⟩ name) := by
  rintro world plain ⟨environments, stable, stablePlain⟩
  cases found : plain.environment[name]? with
  | some value =>
      rw [lookup_bound found, lookup_bound (environments.keeps name value found)]
      exact .ok ⟨environments, stable, stablePlain⟩
  | none =>
      cases resolver with
      | none =>
          cases kept : world.environment[name]? with
          | some value =>
              have known := environments.extra name value kept found
              rw [stable name] at known
              cases known
          | none =>
              rw [lookup_unasked found rfl, lookup_unasked kept rfl]
              exact .error ⟨environments, stable, stablePlain⟩
      | some resolver =>
          have answerPlain := stablePlain.answer name
          have afterPlain := stablePlain.next name
          cases kept : world.environment[name]? with
          | some value =>
              have known := environments.extra name value kept found
              have resolved : (resolver.resolve name plain.memory).1.value? = some value := by
                rw [answerPlain, known]
                rfl
              rw [lookup_bound kept, lookup_resolved found rfl resolved]
              exact .ok ⟨environments, stable, afterPlain⟩
          | none =>
              have sameAnswer : (resolver.resolve name world.memory).1 =
                  (resolver.resolve name plain.memory).1 :=
                (stable.answer name).trans answerPlain.symm
              have after := stable.next name
              cases given : (resolver.resolve name plain.memory).1.value? with
              | none =>
                  have refused := (congrArg Answer.value? sameAnswer).trans given
                  rw [lookup_refused found rfl given, lookup_refused kept rfl refused]
                  exact .error ⟨environments, after, afterPlain⟩
              | some value =>
                  have resolved := (congrArg Answer.value? sameAnswer).trans given
                  rw [lookup_resolved found rfl given, lookup_resolved kept rfl resolved]
                  have known := answerPlain.symm.trans (Answer.eq_value_of_value? given)
                  exact .ok ⟨environments.keep found known, after, afterPlain⟩

theorem World.bind_memoizes (name : String) (value : Int64) :
    (Coupling.always (World.Memoizes resolver answers)).Relates (World.bind name value)
      (World.bind name value) :=
  fun _ _ memoizes => .ok { memoizes with environments := memoizes.environments.insert name value }

theorem Engine.run_memoizes (call : Call)
    (program : Program) {world plain : World σ} (memoizes : world.Memoizes resolver answers plain) :
    SameEnd (World.Memoizes resolver answers) (fun _ => World.Memoizes resolver answers)
      (run ⟨call.options true, resolver⟩ program world)
      (run ⟨call.options false, resolver⟩ program plain) := by
  have limits : (evaluator ⟨call.options true, resolver⟩).options.depthLimit =
      (evaluator ⟨call.options false, resolver⟩).options.depthLimit := rfl
  rw [run_eq_runDirect, run_eq_runDirect]
  refine runDirect_relates (fun statement _ => ?_) memoizes
  refine Evaluator.executeDirect_relates limits (fun name _ => ?_) World.bind_memoizes
  exact Evaluator.lookup_memoizes call.depthLimit name

theorem Engine.eval_memoizes (call : Call)
    {world plain : World σ} (memoizes : world.Memoizes resolver answers plain) :
    SameEnd (World.Memoizes resolver answers) (fun _ => World.Memoizes resolver answers)
      (eval ⟨call.options true, resolver⟩ call.source world)
      (eval ⟨call.options false, resolver⟩ call.source plain) := by
  have sameParse : parse ⟨call.options true, resolver⟩ call.source =
      parse ⟨call.options false, resolver⟩ call.source := rfl
  cases parsed : parse ⟨call.options false, resolver⟩ call.source with
  | ok program =>
      rw [eval_of_parse parsed, eval_of_parse (sameParse.trans parsed)]
      exact run_memoizes call program memoizes
  | error error =>
      rw [eval_of_parse_error parsed, eval_of_parse_error (sameParse.trans parsed)]
      exact .error memoizes

end Runs

/-- Runs texts one after another on one world, going on after errors. For each stands what it came to, and with that
the world that it left. -/
def session (resolver : Option (Resolver σ)) (memoize : Bool) :
    List Call → World σ → List (EStateM.Result EngineError (World σ) Int64)
  | [], _ => []
  | call :: rest, world =>
    let result := Engine.eval ⟨call.options memoize, resolver⟩ call.source world
    result :: session resolver memoize rest (World.left result)

theorem SameEnd.left {α ε : Type} {related : World σ → World σ → Prop}
    {first second : EStateM.Result ε (World σ) α} (same : SameEnd related (fun _ => related) first second) :
    related (World.left first) (World.left second) := by
  cases same with
  | ok related => exact related
  | error related => exact related

/-- Under a resolver that answers each name always the same way, a session with memoization comes to the same as one
without: call by call the same value or error, and environments that bind the same but for values of the resolver. -/
theorem session_memoizes {resolver : Option (Resolver σ)} {answers : String → Answer}
    (calls : List Call) {world plain : World σ} (same : world.environment = plain.environment)
    (stable : Resolver.IsStable answers resolver world.memory)
    (stablePlain : Resolver.IsStable answers resolver plain.memory) :
    List.Forall₂
      (SameEnd (World.Memoizes resolver answers) (fun _ => World.Memoizes resolver answers))
      (session resolver true calls world) (session resolver false calls plain) := by
  have start : world.Memoizes resolver answers plain := by
    refine ⟨?_, stable, stablePlain⟩
    rw [same]
    exact .refl answers plain.environment
  clear same stable stablePlain
  induction calls generalizing world plain with
  | nil => exact .nil
  | cons call rest ih =>
      have head := Engine.eval_memoizes call start
      exact .cons head (ih head.left)

theorem session_memoizes_scripted :
    Resolver.IsStable (fun name => if "x" = name then .value 3 else .unknown)
      (some Resolver.scripted) [("x", [.value 3])] ∧
    List.Forall₂
      (SameEnd
        (World.Memoizes (some .scripted) (fun name => if "x" = name then .value 3 else .unknown))
        (fun _ =>
          World.Memoizes (some .scripted) (fun name => if "x" = name then .value 3 else .unknown)))
      (session (some .scripted) true [⟨"x + 1", 1, 9⟩, ⟨"var x = y", 1, 9⟩, ⟨"x", 0, 9⟩]
        ⟨∅, [("x", [.value 3])], []⟩)
      (session (some .scripted) false [⟨"x + 1", 1, 9⟩, ⟨"var x = y", 1, 9⟩, ⟨"x", 0, 9⟩]
        ⟨∅, [("x", [.value 3])], []⟩) := by
  have stable : Resolver.IsStable (fun name => if "x" = name then .value 3 else .unknown)
      (some Resolver.scripted) [("x", [.value 3])] := by
    refine .of_fixed fun name => ?_
    by_cases same : "x" = name
    · simp only [Resolver.scripted, Script.next, if_pos same]
    · simp only [Resolver.scripted, Script.next, if_neg same]
  exact ⟨stable, session_memoizes _ rfl stable stable⟩

end Abacus
