import Abacus.Proofs.DirectEvaluation
import Abacus.Proofs.EvaluationRules

set_option autoImplicit false

namespace Abacus

variable {σ : Type}

/-- A name that an evaluation came to: where it stands among the names of a program, and what it was bound to at that
moment. -/
structure Visit where
  place : Nat
  name : String
  binding : Option Int64
deriving DecidableEq, Repr

namespace Visit

def occurrence (visit : Visit) : String × Nat := (visit.name, visit.place)

def unbound? (visit : Visit) : Option String :=
  match visit.binding with
  | some _ => none
  | none => some visit.name

/-- What is visited after an evaluation: nothing if that failed. -/
def after (result : EStateM.Result EvalError (World σ) Int64)
    (visits : Int64 → World σ → List Visit) : List Visit :=
  match result with
  | .ok value world => visits value world
  | .error _ _ => []

end Visit

namespace Evaluator

def visitsWithin (evaluator : Evaluator σ) (depth : Nat) (visits : List Visit) : List Visit :=
  if depth < evaluator.options.depthLimit then visits else []

/-- What is visited in a left operand: at the same depth if it is a chain itself, else one deeper. -/
def visitsLeading (evaluator : Evaluator σ) (depth : Nat) (left : Expr) (visits : Nat → List Visit) :
    List Visit :=
  if left.isChained then visits depth else evaluator.visitsWithin (depth + 1) (visits (depth + 1))

/-- What the evaluation of an expression visits, at a depth that was found to be within the limit. The first name of the
expression has the given place. -/
def visits (evaluator : Evaluator σ) (depth place : Nat) : Expr → World σ → List Visit
  | .number _, _ => []
  | .name text, world => [⟨place, text, world.environment[text]?⟩]
  | .unary _ operand, world =>
    evaluator.visitsWithin (depth + 1) (evaluator.visits (depth + 1) place operand world)
  | .paren inner, world =>
    evaluator.visitsWithin (depth + 1) (evaluator.visits (depth + 1) place inner world)
  | .binary _ left right, world =>
    evaluator.visitsLeading depth left (evaluator.visits · place left world) ++
      Visit.after (evaluator.leading depth left (evaluator.inPlace · left) world) fun _ between =>
        evaluator.visitsWithin (depth + 1)
          (evaluator.visits (depth + 1) (place + left.names.length) right between)
  | .logic op left right, world =>
    evaluator.visitsLeading depth left (evaluator.visits · place left world) ++
      Visit.after (evaluator.leading depth left (evaluator.inPlace · left) world) fun first between =>
        match op.decided? first with
        | some _ => []
        | none =>
          evaluator.visitsWithin (depth + 1)
            (evaluator.visits (depth + 1) (place + left.names.length) right between)
  | .member value _, world =>
    evaluator.visitsLeading depth value (evaluator.visits · place value world)
  | .ternary condition yes no, world =>
    evaluator.visitsWithin (depth + 1) (evaluator.visits (depth + 1) place condition world) ++
      Visit.after (evaluator.direct (depth + 1) condition world) fun chosen between =>
        let further := place + condition.names.length
        if chosen ≠ 0 then
          evaluator.visitsWithin (depth + 1) (evaluator.visits (depth + 1) further yes between)
        else
          evaluator.visitsWithin (depth + 1)
            (evaluator.visits (depth + 1) (further + yes.names.length) no between)

end Evaluator

namespace World

@[simp] theorem lookups_asked (resolver : Resolver σ) (name : String) (world : World σ) :
    (world.asked resolver name).lookups = world.lookups ++ [name] := by
  simp only [lookups, asked, List.reverse_cons, List.map_append, List.map_cons, List.map_nil]

@[simp] theorem lookups_memoized (evaluator : Evaluator σ) (name : String) (value : Int64)
    (world : World σ) : (world.memoized evaluator name value).lookups = world.lookups := by
  rw [lookups, consultations_memoized, lookups]

@[simp] theorem lookups_settle (world : World σ) (outcome : Outcome) :
    (outcome.settle world).lookups = world.lookups := by
  cases outcome <;> rfl

end World

/-- The visits are of occurrences among the names, which start at the place, from left to right and each at most once. -/
def Visit.InOrder (visits : List Visit) (place : Nat) (names : List String) : Prop :=
  (visits.map occurrence).Sublist (names.zipIdx place)

namespace Visit.InOrder

variable {visits : List Visit} {place : Nat} {names others : List String} {evaluator : Evaluator σ}
  {depth : Nat}

theorem nil (place : Nat) (names : List String) : InOrder [] place names := List.nil_sublist _

/-- Names that come later may all be passed over. -/
theorem widen (ordered : InOrder visits place names) (others : List String) :
    InOrder visits place (names ++ others) := by
  rw [InOrder, List.zipIdx_append]
  exact ordered.trans (List.sublist_append_left _ _)

/-- Names that come earlier may all be passed over. -/
theorem shift (ordered : InOrder visits (place + others.length) names) :
    InOrder visits place (others ++ names) := by
  rw [InOrder, List.zipIdx_append, Nat.add_comm place]
  rw [InOrder, Nat.add_comm place] at ordered
  exact ordered.trans (List.sublist_append_right _ _)

theorem append {later : List Visit} (first : InOrder visits place names)
    (second : InOrder later (place + names.length) others) :
    InOrder (visits ++ later) place (names ++ others) := by
  rw [InOrder, List.map_append, List.zipIdx_append]
  exact List.Sublist.append first second

theorem after {result : EStateM.Result EvalError (World σ) Int64}
    {visits : Int64 → World σ → List Visit}
    (ordered : ∀ value world, InOrder (visits value world) place names) :
    InOrder (Visit.after result visits) place names := by
  cases result with
  | ok value world => exact ordered value world
  | error error world => exact nil place names

theorem within (ordered : InOrder visits place names) :
    InOrder (evaluator.visitsWithin depth visits) place names := by
  unfold Evaluator.visitsWithin
  split
  · exact ordered
  · exact nil place names

theorem leading {left : Expr} {visits : Nat → List Visit}
    (ordered : ∀ depth, InOrder (visits depth) place names) :
    InOrder (evaluator.visitsLeading depth left visits) place names := by
  unfold Evaluator.visitsLeading
  split
  · exact ordered depth
  · exact within (ordered (depth + 1))

end Visit.InOrder

namespace Evaluator

open Visit

/-- An evaluation visits the names of its expression from left to right. -/
theorem visits_inOrder (evaluator : Evaluator σ) (e : Expr) :
    ∀ depth place world, InOrder (evaluator.visits depth place e world) place e.names := by
  induction e with
  | number value => exact fun _ place _ => .nil place _
  | name text => exact fun _ _ _ => List.Sublist.refl _
  | unary op operand ih => exact fun _ _ _ => .within (ih _ _ _)
  | paren inner ih => exact fun _ _ _ => .within (ih _ _ _)
  | binary op left right ihLeft ihRight =>
      intro depth place world
      exact (InOrder.leading fun _ => ihLeft _ _ _).append (.after fun _ _ => .within (ihRight _ _ _))
  | logic op left right ihLeft ihRight =>
      intro depth place world
      refine (InOrder.leading fun _ => ihLeft _ _ _).append (.after fun first between => ?_)
      split
      · exact .nil _ _
      · exact .within (ihRight _ _ _)
  | member value set ih => exact fun _ _ _ => .leading fun _ => ih _ _ _
  | ternary condition yes no ihCondition ihYes ihNo =>
      intro depth place world
      rw [Expr.names, List.append_assoc]
      refine (InOrder.within (ihCondition _ _ _)).append (.after fun chosen between => ?_)
      dsimp only
      split
      · exact (InOrder.within (ihYes _ _ _)).widen _
      · exact (InOrder.within (ihNo _ _ _)).shift

/-- What is asked in visits: the names that are not bound, if there is a resolver. -/
def questions (evaluator : Evaluator σ) (visits : List Visit) : List String :=
  match evaluator.resolver with
  | none => []
  | some _ => visits.filterMap unbound?

@[simp] theorem questions_nil (evaluator : Evaluator σ) : evaluator.questions [] = [] := by
  unfold questions
  split <;> rfl

theorem questions_append (evaluator : Evaluator σ) (first second : List Visit) :
    evaluator.questions (first ++ second) =
      evaluator.questions first ++ evaluator.questions second := by
  unfold questions
  split
  · rfl
  · exact List.filterMap_append

/-- To ask is to pick names that were visited. -/
theorem questions_sublist (evaluator : Evaluator σ) {visits : List Visit} {place : Nat}
    {names : List String} (ordered : InOrder visits place names) :
    (evaluator.questions visits).Sublist names := by
  have visited : (visits.map (·.name)).Sublist names := by
    have named := List.Sublist.map Prod.fst ordered
    rw [List.map_map, List.zipIdx_map_fst] at named
    exact named
  refine List.Sublist.trans ?_ visited
  unfold questions
  split
  · exact List.nil_sublist _
  · clear ordered visited
    induction visits with
    | nil => exact List.Sublist.refl _
    | cons visit rest ih =>
        obtain ⟨place, name, binding⟩ := visit
        cases binding with
        | some value => exact ih.cons name
        | none => exact ih.cons_cons name

/-- In every world the action asks what is asked in the visits. -/
def Asks (evaluator : Evaluator σ) (action : WorldAction σ Int64) (visits : World σ → List Visit) :
    Prop :=
  ∀ world, (World.left (action world)).lookups = world.lookups ++ evaluator.questions (visits world)

namespace Asks

variable {evaluator : Evaluator σ} {action : WorldAction σ Int64} {visits : World σ → List Visit}
  {depth : Nat}

theorem value (value : Int64) : evaluator.Asks (pure value) fun _ => [] := by
  intro world
  rw [questions_nil, List.append_nil]
  rfl

theorem apply (op : BinaryOp) (left right : Int64) :
    evaluator.Asks (ofExcept (op.apply left right)) fun _ => [] := by
  intro world
  rw [questions_nil, List.append_nil]
  cases op.apply left right <;> rfl

theorem bind {next : Int64 → WorldAction σ Int64} {later : Int64 → World σ → List Visit}
    (head : evaluator.Asks action visits) (tail : ∀ value, evaluator.Asks (next value) (later value)) :
    evaluator.Asks (action >>= next) fun world =>
      visits world ++ Visit.after (action world) later := by
  intro world
  have asked := head world
  rw [questions_append, ← List.append_assoc, ← asked]
  simp only [Bind.bind, EStateM.bind]
  cases action world with
  | ok value between => exact tail value between
  | error error after => simp only [Visit.after, questions_nil, List.append_nil]

/-- What only computes with the value that came asks nothing more. -/
theorem followed {next : Int64 → WorldAction σ Int64} (head : evaluator.Asks action visits)
    (tail : ∀ value, evaluator.Asks (next value) fun _ => []) :
    evaluator.Asks (action >>= next) visits := by
  intro world
  have asked := head.bind tail world
  have nothing : Visit.after (action world) (fun _ _ => []) = [] := by
    cases action world <;> rfl
  dsimp only at asked
  rw [nothing, List.append_nil] at asked
  exact asked

theorem within (inside : evaluator.Asks action visits) :
    evaluator.Asks (evaluator.within depth action) fun world =>
      evaluator.visitsWithin depth (visits world) := by
  intro world
  unfold Evaluator.within visitsWithin
  split
  · exact inside world
  · rw [questions_nil, List.append_nil]
    rfl

theorem direct {e : Expr} (inside : evaluator.Asks (evaluator.inPlace depth e) visits) :
    evaluator.Asks (evaluator.direct depth e) fun world =>
      evaluator.visitsWithin depth (visits world) :=
  inside.within

theorem leading {left : Expr} {visits : Nat → World σ → List Visit}
    (inside : ∀ depth, evaluator.Asks (evaluator.inPlace depth left) (visits depth)) (depth : Nat) :
    evaluator.Asks (evaluator.leading depth left (evaluator.inPlace · left)) fun world =>
      evaluator.visitsLeading depth left (visits · world) := by
  unfold Evaluator.leading visitsLeading
  split
  · exact inside depth
  · exact (inside (depth + 1)).within

/-- A name is asked for where the environment does not bind it. -/
theorem lookup (place : Nat) (name : String) :
    evaluator.Asks (evaluator.lookup name) fun world =>
      [⟨place, name, world.environment[name]?⟩] := by
  intro world
  dsimp only
  have ends := evaluator.lookup_ends name world
  generalize evaluator.lookup name world = ended at ends
  cases ends with
  | bound bound =>
      rw [bound, questions]
      split <;> exact (List.append_nil _).symm
  | unasked unbound nobody =>
      rw [questions, nobody]
      exact (List.append_nil _).symm
  | refused unbound somebody refused =>
      rw [unbound, questions, somebody]
      exact World.lookups_asked _ _ _
  | resolved unbound somebody resolved =>
      rw [unbound, questions, somebody]
      exact (World.lookups_memoized _ _ _ _).trans (World.lookups_asked _ _ _)

end Asks

theorem inPlace_asks (evaluator : Evaluator σ) (e : Expr) :
    ∀ depth place, evaluator.Asks (evaluator.inPlace depth e) (evaluator.visits depth place e) := by
  induction e with
  | number value => exact fun _ _ => .value value
  | name text => exact fun _ place => .lookup place text
  | unary op operand ih => exact fun _ _ => (ih _ _).direct.followed fun _ => .value _
  | paren inner ih => exact fun _ _ => (ih _ _).direct
  | binary op left right ihLeft ihRight =>
      intro depth place
      have before := Asks.leading (fun depth => ihLeft depth place) depth
      have after := (ihRight (depth + 1) (place + left.names.length)).direct
      exact before.bind fun _ => after.followed fun _ => .apply op _ _
  | logic op left right ihLeft ihRight =>
      intro depth place
      have before := Asks.leading (fun depth => ihLeft depth place) depth
      have after := (ihRight (depth + 1) (place + left.names.length)).direct
      cases op with
      | and =>
          refine before.bind fun first => ?_
          by_cases zero : first = 0
          · simp only [LogicOp.decided?, zero, if_true]
            exact .value 0
          · simp only [LogicOp.decided?, zero, if_false]
            exact after.followed fun _ => .value _
      | or =>
          refine before.bind fun first => ?_
          by_cases zero : first = 0
          · simp only [LogicOp.decided?, zero, if_true, ne_eq, not_true_eq_false, if_false]
            exact after.followed fun _ => .value _
          · simp only [LogicOp.decided?, zero, if_false, ne_eq, not_false_eq_true, if_true]
            exact .value 1
  | member value set ih =>
      intro depth place
      have before := Asks.leading (fun depth => ih depth place) depth
      exact before.followed fun _ => .value _
  | ternary condition yes no ihCondition ihYes ihNo =>
      intro depth place
      have chosen := (ihCondition (depth + 1) place).direct
      refine chosen.bind fun first => ?_
      by_cases taken : first ≠ 0
      · simp only [if_pos taken]
        exact (ihYes _ _).direct
      · simp only [if_neg taken]
        exact (ihNo _ _).direct

end Evaluator

namespace Engine

open Visit

/-- What a run of statements visits, up to the first that fails. The first name in them has the given place. -/
def visitsFrom (engine : Engine σ) (place : Nat) : Program → World σ → List Visit
  | [], _ => []
  | statement :: rest, world =>
    engine.evaluator.visitsWithin 0 (engine.evaluator.visits 0 place statement.expr world) ++
      match engine.evaluator.executeDirect statement world with
      | .ok _ after => engine.visitsFrom (place + statement.expr.names.length) rest after
      | .error _ _ => []

/-- What a run of a program visits. -/
def visits (engine : Engine σ) (program : Program) (world : World σ) : List Visit :=
  engine.visitsFrom 0 program world

theorem visitsFrom_inOrder (engine : Engine σ) (place : Nat) (program : Program) (world : World σ) :
    InOrder (engine.visitsFrom place program world) place program.names := by
  induction program generalizing place world with
  | nil => exact .nil place []
  | cons statement rest ih =>
      have head := engine.evaluator.visits_inOrder statement.expr 0 place world
      refine (InOrder.within head).append ?_
      split
      · exact ih _ _
      · exact .nil _ _

theorem lookups_runDirect (engine : Engine σ) (index place : Nat) (last : Int64) (program : Program)
    (world : World σ) :
    (World.left (engine.runDirect index last program world)).lookups =
      world.lookups ++ engine.evaluator.questions (engine.visitsFrom place program world) := by
  induction program generalizing index place last world with
  | nil =>
      rw [visitsFrom, Evaluator.questions_nil, List.append_nil]
      rfl
  | cons statement rest ih =>
      have asks := (engine.evaluator.inPlace_asks statement.expr 0 place).direct world
      have meaning := engine.evaluator.executeDirect_eq statement world
      rw [visitsFrom, Evaluator.questions_append, ← List.append_assoc, ← asks]
      cases came : engine.evaluator.direct 0 statement.expr world with
      | ok value between =>
          rw [came] at meaning
          rw [runDirect_of_ok meaning, meaning]
          dsimp only
          rw [ih, World.lookups_settle]
          rfl
      | error error between =>
          rw [came] at meaning
          rw [runDirect_of_error meaning, meaning]
          dsimp only
          rw [Evaluator.questions_nil, List.append_nil]
          rfl

/-- In a run the resolver is asked for exactly those names that the run comes to while they are unbound, in that order,
whether its values are kept or not. The run comes to occurrences of names in the order in which they stand in the program,
to each at most once, so that what is asked is a part of the names of the program in their order. -/
theorem lookups_in_order (engine : Engine σ) (program : Program) (world : World σ) :
    (World.left (engine.run program world)).lookups =
        world.lookups ++ engine.evaluator.questions (engine.visits program world) ∧
      ((engine.visits program world).map occurrence).Sublist program.names.zipIdx ∧
      (engine.evaluator.questions (engine.visits program world)).Sublist program.names := by
  have ordered := engine.visitsFrom_inOrder 0 program world
  refine ⟨?_, ordered, engine.evaluator.questions_sublist ordered⟩
  rw [run_eq_runDirect]
  exact engine.lookups_runDirect 0 0 0 program world

end Engine

end Abacus
