import Abacus.Operator
import Abacus.Resolver
import Std.Data.ExtTreeMap

set_option autoImplicit false

namespace Abacus

/-- The values of the variables that are bound, ordered by name. Two environments with the same bindings
are equal. -/
abbrev Environment := Std.ExtTreeMap String Int64

theorem Environment.getElem?_insert (environment : Environment) (name other : String) (value : Int64) :
    (environment.insert name value)[other]? =
      if name = other then some value else environment[other]? := by
  simp only [Std.ExtTreeMap.getElem?_insert, Std.compare_eq_iff_eq]

theorem Environment.getElem?_insert_eq_none {environment : Environment} {name other : String}
    {value : Int64} :
    (environment.insert name value)[other]? = none ↔ name ≠ other ∧ environment[other]? = none := by
  rw [getElem?_insert]
  by_cases same : name = other
  · simp only [same, if_true, reduceCtorEq, ne_eq, not_true_eq_false, false_and]
  · simp only [same, if_false, ne_eq, not_false_eq_true, true_and]

theorem Environment.getElem?_eq_none_iff {environment : Environment} {name : String} :
    environment[name]? = none ↔ name ∉ environment := by
  rw [Std.ExtTreeMap.mem_iff_isSome_getElem?, Option.not_isSome_iff_eq_none]

/-- What outlives an evaluation: the bindings, the memory of the resolver, and what it was asked, latest first. -/
structure World (σ : Type) where
  environment : Environment
  memory : σ
  consultations : List Consultation := []

/-- An action on the world. One that fails keeps the changes made before the failure. -/
abbrev WorldAction (σ α : Type) := EStateM EvalError (World σ) α

namespace World

variable {σ : Type}

def lookups (world : World σ) : List String :=
  world.consultations.reverse.map (·.name)

def warnings (world : World σ) : List Warning :=
  world.consultations.reverse.filterMap (·.warning?)

def bind (name : String) (value : Int64) : WorldAction σ Unit :=
  modify fun world => { world with environment := world.environment.insert name value }

end World

/-- A world and the number of evaluations that are open. -/
structure Machine (σ : Type) extends World σ where
  depth : Nat := 0

/-- A step of an evaluation. One that fails keeps the changes made before the failure. -/
abbrev Action (σ α : Type) := EStateM EvalError (Machine σ) α

namespace Machine

variable {ε σ α : Type}

def lift (action : WorldAction σ α) : Action σ α := fun machine =>
  match action machine.toWorld with
  | .ok value world => .ok value { world with depth := machine.depth }
  | .error error world => .error error { world with depth := machine.depth }

def start (action : EStateM ε (Machine σ) α) : EStateM ε (World σ) α := fun world =>
  match action { world with } with
  | .ok value machine => .ok value machine.toWorld
  | .error error machine => .error error machine.toWorld

end Machine

end Abacus
