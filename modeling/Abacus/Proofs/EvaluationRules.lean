import Abacus.Evaluator.Direct
import Mathlib

set_option autoImplicit false

namespace Abacus

variable {σ : Type}

namespace World

/-- The world after the resolver was asked for a name: its answer noted, and what it now remembers. -/
def asked (resolver : Resolver σ) (name : String) (world : World σ) : World σ where
  environment := world.environment
  memory := (resolver.resolve name world.memory).2
  consultations := ⟨name, (resolver.resolve name world.memory).1⟩ :: world.consultations

/-- The world with a name bound to the value that a resolver gave, if such values are kept. -/
def memoized (evaluator : Evaluator σ) (name : String) (value : Int64) (world : World σ) : World σ :=
  if evaluator.options.memoize then
    { world with environment := world.environment.insert name value }
  else world

@[simp] theorem environment_asked (resolver : Resolver σ) (name : String) (world : World σ) :
    (world.asked resolver name).environment = world.environment := rfl

@[simp] theorem consultations_memoized (evaluator : Evaluator σ) (name : String) (value : Int64)
    (world : World σ) : (world.memoized evaluator name value).consultations = world.consultations := by
  unfold memoized
  split <;> rfl

end World

namespace Evaluator

variable {evaluator : Evaluator σ} {resolver : Resolver σ} {name : String} {value : Int64}
  {world : World σ}

theorem lookup_bound (bound : world.environment[name]? = some value) :
    evaluator.lookup name world = .ok value world := by
  simp only [lookup, bind, EStateM.bind, get, getThe, MonadStateOf.get, EStateM.get, bound]
  rfl

/-- A name that is not bound has no value where consultation gives none. -/
theorem lookup_missing {after : World σ} (unbound : world.environment[name]? = none)
    (missing : evaluator.consult name world = .ok none after) :
    evaluator.lookup name world = .error (.undefinedVariable name) after := by
  simp only [lookup, bind, EStateM.bind, get, getThe, MonadStateOf.get, EStateM.get, unbound, missing]
  rfl

theorem lookup_found {after : World σ} (unbound : world.environment[name]? = none)
    (found : evaluator.consult name world = .ok (some value) after) :
    evaluator.lookup name world = .ok value (after.memoized evaluator name value) := by
  simp only [lookup, bind, EStateM.bind, get, getThe, MonadStateOf.get, EStateM.get, unbound, found,
    World.memoized]
  split <;> rfl

theorem consult_nobody (nobody : evaluator.resolver = none) :
    evaluator.consult name world = .ok none world := by
  simp only [consult, nobody]

theorem consult_somebody (evaluator : Evaluator σ) (somebody : evaluator.resolver = some resolver)
    (name : String) (world : World σ) : evaluator.consult name world =
      .ok (resolver.resolve name world.memory).1.value? (world.asked resolver name) := by
  simp only [consult, somebody, World.asked]

theorem lookup_unasked (unbound : world.environment[name]? = none)
    (nobody : evaluator.resolver = none) :
    evaluator.lookup name world = .error (.undefinedVariable name) world :=
  lookup_missing unbound (consult_nobody nobody)

theorem lookup_refused (unbound : world.environment[name]? = none)
    (somebody : evaluator.resolver = some resolver)
    (refused : (resolver.resolve name world.memory).1.value? = none) :
    evaluator.lookup name world =
      .error (.undefinedVariable name) (world.asked resolver name) := by
  have consulted := evaluator.consult_somebody somebody name world
  rw [refused] at consulted
  exact lookup_missing unbound consulted

theorem lookup_resolved (unbound : world.environment[name]? = none)
    (somebody : evaluator.resolver = some resolver)
    (resolved : (resolver.resolve name world.memory).1.value? = some value) :
    evaluator.lookup name world =
      .ok value ((world.asked resolver name).memoized evaluator name value) := by
  have consulted := evaluator.consult_somebody somebody name world
  rw [resolved] at consulted
  exact lookup_found unbound consulted

inductive LookupEnds (evaluator : Evaluator σ) (name : String) (world : World σ) :
    EStateM.Result EvalError (World σ) Int64 → Prop
  | bound {value : Int64} (bound : world.environment[name]? = some value) :
      LookupEnds evaluator name world (.ok value world)
  | unasked (unbound : world.environment[name]? = none) (nobody : evaluator.resolver = none) :
      LookupEnds evaluator name world (.error (.undefinedVariable name) world)
  | refused {resolver : Resolver σ} (unbound : world.environment[name]? = none)
      (somebody : evaluator.resolver = some resolver)
      (refused : (resolver.resolve name world.memory).1.value? = none) :
      LookupEnds evaluator name world
        (.error (.undefinedVariable name) (world.asked resolver name))
  | resolved {resolver : Resolver σ} {value : Int64} (unbound : world.environment[name]? = none)
      (somebody : evaluator.resolver = some resolver)
      (resolved : (resolver.resolve name world.memory).1.value? = some value) :
      LookupEnds evaluator name world
        (.ok value ((world.asked resolver name).memoized evaluator name value))

theorem lookup_ends (evaluator : Evaluator σ) (name : String) (world : World σ) :
    LookupEnds evaluator name world (evaluator.lookup name world) := by
  cases found : world.environment[name]? with
  | some value =>
      rw [lookup_bound found]
      exact .bound found
  | none =>
      cases somebody : evaluator.resolver with
      | none =>
          rw [lookup_unasked found somebody]
          exact .unasked found somebody
      | some resolver =>
          cases given : (resolver.resolve name world.memory).1.value? with
          | none =>
              rw [lookup_refused found somebody given]
              exact .refused found somebody given
          | some value =>
              rw [lookup_resolved found somebody given]
              exact .resolved found somebody given

end Evaluator

namespace Evaluator

variable {σ τ : Type}

/-- A relation between evaluations that is kept by coming to a value, by going on with what came, and by starting one
level deeper, within the limit of the first evaluator or at it. -/
structure Congruence (first : Evaluator σ) (second : Evaluator τ)
    (related : WorldAction σ Int64 → WorldAction τ Int64 → Prop) : Prop where
  value : ∀ value, related (Pure.pure value) (Pure.pure value)
  next : ∀ {action : WorldAction σ Int64} {other : WorldAction τ Int64}
    {rest : Int64 → WorldAction σ Int64} {restOther : Int64 → WorldAction τ Int64},
    related action other → (∀ value, related (rest value) (restOther value)) →
      related (action >>= rest) (other >>= restOther)
  start : ∀ {depth : Nat} {e : Expr}, depth ≤ first.options.depthLimit →
    (depth < first.options.depthLimit → related (first.inPlace depth e) (second.inPlace depth e)) →
      related (first.direct depth e) (second.direct depth e)

namespace Congruence

variable {first : Evaluator σ} {second : Evaluator τ}
  {related : WorldAction σ Int64 → WorldAction τ Int64 → Prop}

theorem leading (congruence : Congruence first second related) {left : Expr} {depth : Nat}
    (room : depth < first.options.depthLimit)
    (inside : ∀ depth, depth < first.options.depthLimit →
      related (first.inPlace depth left) (second.inPlace depth left)) :
    related (first.leading depth left (first.inPlace · left))
      (second.leading depth left (second.inPlace · left)) := by
  unfold Evaluator.leading
  split
  · exact inside depth room
  · exact congruence.start room (inside (depth + 1))

/-- Evaluations of an expression are related where lookups of the names in it are, and its operators. -/
theorem inPlace (congruence : Congruence first second related) {e : Expr}
    (lookups : ∀ name ∈ e.names, related (first.lookup name) (second.lookup name))
    (operators : ∀ op ∈ e.operators, ∀ left right : Int64,
      related (ofExcept (op.apply left right)) (ofExcept (op.apply left right))) :
    ∀ depth, depth < first.options.depthLimit →
      related (first.inPlace depth e) (second.inPlace depth e) := by
  -- at all depths at once: what leads is evaluated at the depth of the whole, or one level deeper
  induction e with
  | number value => exact fun _ _ => congruence.value value
  | name text => exact fun _ _ => lookups text List.mem_cons_self
  | unary op operand ih =>
      intro depth room
      have inside := congruence.start room (ih lookups operators (depth + 1))
      exact congruence.next inside fun _ => congruence.value _
  | paren inner ih =>
      intro depth room
      exact congruence.start room (ih lookups operators (depth + 1))
  | binary op left right ihLeft ihRight =>
      intro depth room
      obtain ⟨lookupsLeft, lookupsRight⟩ := List.forall_mem_append.mp lookups
      obtain ⟨operatorsLeft, others⟩ := List.forall_mem_append.mp operators
      obtain ⟨own, operatorsRight⟩ := List.forall_mem_cons.mp others
      have before := congruence.leading room (ihLeft lookupsLeft operatorsLeft)
      have after := congruence.start room (ihRight lookupsRight operatorsRight (depth + 1))
      exact congruence.next before fun _ => congruence.next after fun _ => own _ _
  | logic op left right ihLeft ihRight =>
      intro depth room
      obtain ⟨lookupsLeft, lookupsRight⟩ := List.forall_mem_append.mp lookups
      obtain ⟨operatorsLeft, operatorsRight⟩ := List.forall_mem_append.mp operators
      have before := congruence.leading room (ihLeft lookupsLeft operatorsLeft)
      have after := congruence.start room (ihRight lookupsRight operatorsRight (depth + 1))
      cases op with
      | and =>
          refine congruence.next before fun _ => ?_
          split
          · exact congruence.value 0
          · exact congruence.next after fun _ => congruence.value _
      | or =>
          refine congruence.next before fun _ => ?_
          split
          · exact congruence.value 1
          · exact congruence.next after fun _ => congruence.value _
  | member value set ih =>
      intro depth room
      have before := congruence.leading room (ih lookups operators)
      exact congruence.next before fun _ => congruence.value _
  | ternary condition yes no ihCondition ihYes ihNo =>
      intro depth room
      simp only [Expr.names, Expr.operators, List.forall_mem_append] at lookups operators
      obtain ⟨⟨lookupsCondition, lookupsYes⟩, lookupsNo⟩ := lookups
      obtain ⟨⟨operatorsCondition, operatorsYes⟩, operatorsNo⟩ := operators
      have chosen := congruence.start room
        (ihCondition lookupsCondition operatorsCondition (depth + 1))
      refine congruence.next chosen fun _ => ?_
      split
      · exact congruence.start room (ihYes lookupsYes operatorsYes (depth + 1))
      · exact congruence.start room (ihNo lookupsNo operatorsNo (depth + 1))

theorem direct (congruence : Congruence first second related) {e : Expr}
    (lookups : ∀ name ∈ e.names, related (first.lookup name) (second.lookup name))
    (operators : ∀ op ∈ e.operators, ∀ left right : Int64,
      related (ofExcept (op.apply left right)) (ofExcept (op.apply left right))) :
    related (first.direct 0 e) (second.direct 0 e) :=
  congruence.start (Nat.zero_le _) (congruence.inPlace lookups operators 0)

end Congruence

end Evaluator

end Abacus
