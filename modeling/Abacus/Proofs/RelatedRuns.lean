import Abacus.Proofs.DirectEvaluation
import Abacus.Proofs.EvaluationRules

set_option autoImplicit false

/- Two runs side by side. Where the lookups of two evaluators with the same limit on depth take related worlds to related
worlds and come to the same, evaluations do, and with them statements and programs. One run beside itself gives the
invariants of a run. -/
namespace Abacus

variable {σ τ α β : Type}

/-- Two runs came to the same: to one value with related worlds, or to one error with worlds related as after that
error. -/
inductive SameEnd {ε : Type} (during : World σ → World τ → Prop)
    (failed : ε → World σ → World τ → Prop) :
    EStateM.Result ε (World σ) α → EStateM.Result ε (World τ) α → Prop
  | ok {value : α} {world : World σ} {other : World τ} (related : during world other) :
      SameEnd during failed (.ok value world) (.ok value other)
  | error {error : ε} {world : World σ} {other : World τ} (related : failed error world other) :
      SameEnd during failed (.error error world) (.error error other)

/-- How the worlds of two runs hang together: while both go on, and after both failed with an error. Only a lookup
changes worlds; an operator without a value and a limit on depth leave them as they were. -/
structure Coupling (σ τ : Type) where
  during : World σ → World τ → Prop
  failed : EvalError → World σ → World τ → Prop
  keeps : ∀ {error world other}, (∀ name, error ≠ .undefinedVariable name) → during world other →
    failed error world other

namespace Coupling

def always (related : World σ → World τ → Prop) : Coupling σ τ where
  during := related
  failed := fun _ => related
  keeps := fun _ same => same

/-- One run beside itself: what holds of its world while it goes on, and after an error. -/
def alone (during : World σ → Prop) (failed : EvalError → World σ → Prop)
    (keeps : ∀ {error world}, (∀ name, error ≠ .undefinedVariable name) → during world →
      failed error world) : Coupling σ σ where
  during world other := world = other ∧ during world
  failed error world other := world = other ∧ failed error world
  keeps fault := fun ⟨same, holds⟩ => ⟨same, keeps fault holds⟩

/-- Started in related worlds, the actions come to the same. -/
def Relates (coupling : Coupling σ τ) (first : WorldAction σ α) (second : WorldAction τ α) : Prop :=
  ∀ world other, coupling.during world other →
    SameEnd coupling.during coupling.failed (first world) (second other)

variable {coupling : Coupling σ τ}

namespace Relates

theorem pure (value : α) : coupling.Relates (Pure.pure value) (Pure.pure value) :=
  fun _ _ related => .ok related

theorem bind {first : WorldAction σ α} {second : WorldAction τ α} {next : α → WorldAction σ β}
    {nextSecond : α → WorldAction τ β} (head : coupling.Relates first second)
    (tail : ∀ value, coupling.Relates (next value) (nextSecond value)) :
    coupling.Relates (first >>= next) (second >>= nextSecond) := by
  intro world other related
  have same := head world other related
  simp only [Bind.bind, EStateM.bind]
  generalize first world = left at same
  generalize second other = right at same
  cases same with
  | ok related => exact tail _ _ _ related
  | error related => exact .error related

theorem throw {error : EvalError} (fault : ∀ name, error ≠ .undefinedVariable name) :
    coupling.Relates (α := α) (MonadExcept.throw error) (MonadExcept.throw error) :=
  fun _ _ related => .error (coupling.keeps fault related)

theorem apply (op : BinaryOp) (left right : Int64) :
    coupling.Relates (ofExcept (op.apply left right)) (ofExcept (op.apply left right)) := by
  cases came : op.apply left right with
  | ok value => exact pure value
  | error error =>
      obtain ⟨-, -, rfl⟩ := BinaryOp.apply_eq_error_iff.mp came
      exact throw fun _ => nofun

variable {own : Coupling σ σ} {action : WorldAction σ α} {world after : World σ}

/-- What an action comes to, where it relates to itself. -/
theorem of_ok (relates : own.Relates action action) (start : own.during world world) {value : α}
    (came : action world = .ok value after) : own.during after after := by
  have same := relates world world start
  rw [came] at same
  cases same with
  | ok related => exact related

theorem of_error (relates : own.Relates action action) (start : own.during world world)
    {error : EvalError} (came : action world = .error error after) :
    own.failed error after after := by
  have same := relates world world start
  rw [came] at same
  cases same with
  | error related => exact related

end Relates

end Coupling

namespace Evaluator

variable {first : Evaluator σ} {second : Evaluator τ} {coupling : Coupling σ τ}

theorem within_relates (limits : first.options.depthLimit = second.options.depthLimit) {depth : Nat}
    {action : WorldAction σ α} {other : WorldAction τ α}
    (inside : depth < first.options.depthLimit → coupling.Relates action other) :
    coupling.Relates (first.within depth action) (second.within depth other) := by
  unfold within
  rw [← limits]
  split
  · rename_i room
    exact inside room
  · exact .throw fun _ => nofun

theorem relates_congruence (coupling : Coupling σ τ)
    (limits : first.options.depthLimit = second.options.depthLimit) :
    Congruence first second coupling.Relates where
  value := .pure
  next := .bind
  start _ inside := within_relates limits inside

/-- Evaluations come to the same where lookups of the names in the expression do. -/
theorem direct_relates (limits : first.options.depthLimit = second.options.depthLimit) {e : Expr}
    (lookups : ∀ name ∈ e.names, coupling.Relates (first.lookup name) (second.lookup name))
    (depth : Nat) : coupling.Relates (first.direct depth e) (second.direct depth e) :=
  within_relates limits
    ((relates_congruence coupling limits).inPlace lookups (fun op _ => .apply op) depth)

/-- Statements come to the same where bindings of a name keep worlds related too. -/
theorem executeDirect_relates (limits : first.options.depthLimit = second.options.depthLimit)
    {statement : Statement}
    (lookups : ∀ name ∈ statement.expr.names,
      coupling.Relates (first.lookup name) (second.lookup name))
    (bindings : ∀ name value, coupling.Relates (World.bind name value) (World.bind name value)) :
    coupling.Relates (first.executeDirect statement) (second.executeDirect statement) := by
  cases statement with
  | expression e => exact (direct_relates limits lookups 0).bind fun _ => .pure _
  | assignment name e =>
      refine (direct_relates limits lookups 0).bind fun value => ?_
      exact (bindings name value).bind fun _ => .pure _

end Evaluator

theorem SameEnd.imp {ε : Type} {during weaker : World σ → World τ → Prop}
    {failed weakerFailed : ε → World σ → World τ → Prop}
    {first : EStateM.Result ε (World σ) α} {second : EStateM.Result ε (World τ) α}
    (same : SameEnd during failed first second)
    (ok : ∀ world other, during world other → weaker world other)
    (error : ∀ error world other, failed error world other → weakerFailed error world other) :
    SameEnd weaker weakerFailed first second := by
  cases same with
  | ok related => exact .ok (ok _ _ related)
  | error related => exact .error (error _ _ _ related)

theorem SameEnd.ok_or_error {ε : Type} {during : World σ → World τ → Prop}
    {failed : ε → World σ → World τ → Prop} {first : EStateM.Result ε (World σ) α}
    {second : EStateM.Result ε (World τ) α} (same : SameEnd during failed first second) :
    (∃ value world other, first = .ok value world ∧ second = .ok value other ∧ during world other) ∨
      ∃ error world other, first = .error error world ∧ second = .error error other ∧
        failed error world other := by
  cases same with
  | ok related => exact Or.inl ⟨_, _, _, rfl, rfl, related⟩
  | error related => exact Or.inr ⟨_, _, _, rfl, rfl, related⟩

namespace Engine

variable {first : Engine σ} {second : Engine τ} {program : Program} {index : Nat} {last : Int64}
  {world : World σ} {other : World τ}

/-- Runs come to the same, with the same index of a statement that fails, where their statements do. A run fails in the
way in which the statement did. -/
theorem runDirect_couples {coupling : Coupling σ τ}
    (statements : ∀ statement ∈ program, coupling.Relates
      (first.evaluator.executeDirect statement) (second.evaluator.executeDirect statement))
    (start : coupling.during world other) :
    SameEnd coupling.during
      (fun error world other => ∃ index fault,
        error = .evaluation index fault ∧ coupling.failed fault world other)
      (first.runDirect index last program world) (second.runDirect index last program other) := by
  induction program generalizing index last world other with
  | nil => exact .ok start
  | cons statement rest ih =>
      obtain ⟨head, tail⟩ := List.forall_mem_cons.mp statements
      have same := head world other start
      simp only [runDirect]
      generalize first.evaluator.executeDirect statement world = left at same
      generalize second.evaluator.executeDirect statement other = right at same
      cases same with
      | ok kept => exact ih tail kept
      | error kept => exact .error ⟨index, _, rfl, kept⟩

theorem runDirect_relates {related : World σ → World τ → Prop}
    (statements : ∀ statement ∈ program, (Coupling.always related).Relates
      (first.evaluator.executeDirect statement) (second.evaluator.executeDirect statement))
    (start : related world other) :
    SameEnd related (fun _ => related) (first.runDirect index last program world)
      (second.runDirect index last program other) := by
  refine (runDirect_couples statements start).imp (fun _ _ kept => kept) ?_
  rintro _ _ _ ⟨_, _, _, kept⟩
  exact kept

end Engine

end Abacus
