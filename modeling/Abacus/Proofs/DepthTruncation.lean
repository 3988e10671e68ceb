import Abacus.Proofs.DirectEvaluation
import Abacus.Proofs.EvaluationRules
import Abacus.Resolver.Script

set_option autoImplicit false

namespace Abacus

variable {σ : Type}

/-- What a world may become in an evaluation: more was asked, and more is bound. -/
structure World.Extends (later earlier : World σ) : Prop where
  consultations : earlier.consultations <:+ later.consultations
  bindings : ∀ (name : String) (value : Int64), earlier.environment[name]? = some value →
    later.environment[name]? = some value

namespace World.Extends

variable {earlier later final : World σ}

theorem refl (world : World σ) : world.Extends world :=
  ⟨List.suffix_refl _, fun _ _ bound => bound⟩

theorem trans (first : later.Extends earlier) (second : final.Extends later) :
    final.Extends earlier where
  consultations := first.consultations.trans second.consultations
  bindings name value bound := second.bindings name value (first.bindings name value bound)

theorem lookups_prefix (extended : later.Extends earlier) : earlier.lookups <+: later.lookups := by
  have reversed := List.reverse_prefix.mpr extended.consultations
  exact reversed.map (·.name)

theorem warnings_prefix (extended : later.Extends earlier) : earlier.warnings <+: later.warnings := by
  have reversed := List.reverse_prefix.mpr extended.consultations
  exact reversed.filterMap (·.warning?)

theorem asked (resolver : Resolver σ) (name : String) (world : World σ) :
    (world.asked resolver name).Extends world :=
  ⟨List.suffix_cons _ _, fun _ _ bound => bound⟩

/-- To keep a value under a name that is not bound changes no binding. -/
theorem memoized {world : World σ} {name : String} (evaluator : Evaluator σ) (value : Int64)
    (unbound : world.environment[name]? = none) :
    (world.memoized evaluator name value).Extends world := by
  unfold World.memoized
  split
  · refine ⟨List.suffix_refl _, fun other found bound => ?_⟩
    have apart : name ≠ other := by
      rintro rfl
      rw [unbound] at bound
      cases bound
    rw [Environment.getElem?_insert, if_neg apart]
    exact bound
  · exact refl world

end World.Extends

/-- Wherever it starts, the action leaves a world with no less noted and bound. -/
def WorldAction.Grows (action : WorldAction σ Int64) : Prop :=
  ∀ world, (World.left (action world)).Extends world

namespace WorldAction.Grows

theorem pure (value : Int64) : Grows (σ := σ) (Pure.pure value) := fun world => .refl world

/-- To go on with an action that grows worlds adds to what was there before. -/
theorem after {action : WorldAction σ Int64} {next : Int64 → WorldAction σ Int64}
    (tail : ∀ value, Grows (next value)) (world : World σ) :
    (World.left ((action >>= next) world)).Extends (World.left (action world)) := by
  simp only [Bind.bind, EStateM.bind]
  cases action world with
  | ok value between => exact tail value between
  | error error after => exact .refl after

theorem bind {action : WorldAction σ Int64} {next : Int64 → WorldAction σ Int64} (head : Grows action)
    (tail : ∀ value, Grows (next value)) : Grows (action >>= next) :=
  fun world => (head world).trans (after tail world)

theorem apply (op : BinaryOp) (left right : Int64) : Grows (σ := σ) (ofExcept (op.apply left right)) := by
  intro world
  cases op.apply left right with
  | ok value => exact .refl world
  | error error => exact .refl world

theorem lookup (evaluator : Evaluator σ) (name : String) : Grows (evaluator.lookup name) := by
  intro world
  have ends := evaluator.lookup_ends name world
  generalize evaluator.lookup name world = ended at ends
  cases ends with
  | bound bound => exact .refl world
  | unasked unbound nobody => exact .refl world
  | @refused resolver unbound somebody refused => exact .asked resolver name world
  | @resolved resolver value unbound somebody resolved =>
      exact (World.Extends.asked resolver name world).trans (.memoized evaluator value unbound)

end WorldAction.Grows

namespace Evaluator

theorem direct_grows_of {evaluator : Evaluator σ} {e : Expr} {depth : Nat}
    (inside : depth < evaluator.options.depthLimit → (evaluator.inPlace depth e).Grows) :
    (evaluator.direct depth e).Grows := by
  unfold direct within
  split
  · rename_i room
    exact inside room
  · exact fun world => .refl world

theorem grows_congruence (evaluator : Evaluator σ) :
    Congruence evaluator evaluator fun action _ => action.Grows where
  value := .pure
  next := .bind
  start _ inside := direct_grows_of inside

theorem inPlace_grows (evaluator : Evaluator σ) {depth : Nat} (e : Expr)
    (room : depth < evaluator.options.depthLimit) : (evaluator.inPlace depth e).Grows :=
  evaluator.grows_congruence.inPlace (fun name _ => .lookup evaluator name) (fun op _ => .apply op)
    depth room

/-- Evaluation forgets neither bindings nor what was asked. -/
theorem direct_grows (evaluator : Evaluator σ) (depth : Nat) (e : Expr) :
    (evaluator.direct depth e).Grows :=
  direct_grows_of (evaluator.inPlace_grows e)

/-- The first action does what the second one does, or it is cut short: it fails at the limit, in a world that the second
one only extends. -/
structure CutsShort (limit : Nat) (short long : WorldAction σ Int64) : Prop where
  grows : long.Grows
  ends : ∀ world, short world = long world ∨
    ∃ after, short world = .error (.tooDeep limit limit) after ∧
      (World.left (long world)).Extends after

namespace CutsShort

variable {limit : Nat}

/-- An action that does not depend on the limit is cut short nowhere. -/
theorem refl {action : WorldAction σ Int64} (grows : action.Grows) : CutsShort limit action action :=
  ⟨grows, fun _ => Or.inl rfl⟩

theorem bind {short long : WorldAction σ Int64} {next nextLong : Int64 → WorldAction σ Int64}
    (head : CutsShort limit short long) (tail : ∀ value, CutsShort limit (next value) (nextLong value)) :
    CutsShort limit (short >>= next) (long >>= nextLong) := by
  have grows (value : Int64) : (nextLong value).Grows := (tail value).grows
  refine ⟨head.grows.bind grows, fun world => ?_⟩
  rcases head.ends world with same | ⟨after, cut, extended⟩
  · simp only [Bind.bind, EStateM.bind, same]
    cases long world with
    | ok value between => exact (tail value).ends between
    | error error after => exact Or.inl rfl
  · -- what is cut short in the first part never reaches the second
    have later : (World.left ((long >>= nextLong) world)).Extends (World.left (long world)) :=
      WorldAction.Grows.after grows world
    refine Or.inr ⟨after, ?_, extended.trans later⟩
    simp only [Bind.bind, EStateM.bind, cut]

/-- To start at the limit is to be cut short, whatever comes of the other action. -/
theorem within {evaluator : Evaluator σ} {depth : Nat} {short long : WorldAction σ Int64}
    (room : depth ≤ evaluator.options.depthLimit) (grows : long.Grows)
    (inside : depth < evaluator.options.depthLimit →
      CutsShort evaluator.options.depthLimit short long) :
    CutsShort evaluator.options.depthLimit (evaluator.within depth short) long := by
  by_cases open_ : depth < evaluator.options.depthLimit
  · rw [Evaluator.within, if_pos open_]
    exact inside open_
  · have atLimit : depth = evaluator.options.depthLimit := by omega
    refine ⟨grows, fun world => Or.inr ⟨world, ?_, grows world⟩⟩
    rw [Evaluator.within, if_neg open_, atLimit]
    rfl

end CutsShort

section Limits

variable {short long : Evaluator σ}

theorem cutsShort_start (order : short.options.depthLimit ≤ long.options.depthLimit) {depth : Nat}
    {e : Expr} (room : depth ≤ short.options.depthLimit)
    (inside : depth < short.options.depthLimit →
      CutsShort short.options.depthLimit (short.inPlace depth e) (long.inPlace depth e)) :
    CutsShort short.options.depthLimit (short.direct depth e) (long.direct depth e) := by
  refine .within room (long.direct_grows depth e) fun open_ => ?_
  rw [direct, Evaluator.within, if_pos (Nat.lt_of_lt_of_le open_ order)]
  exact inside open_

theorem cutsShort_congruence (order : short.options.depthLimit ≤ long.options.depthLimit) :
    Congruence short long (CutsShort short.options.depthLimit) where
  value value := .refl (.pure value)
  next := .bind
  start := cutsShort_start order

end Limits

/-- Under a smaller limit on depth an evaluation comes to exactly what it comes to under a larger one, or it fails at
the smaller limit. In that case what it asked, and what it warned of, comes first under the larger one too, and what it
left bound is bound there alike. -/
theorem depth_limit_only_truncates {limit larger : Nat} (order : limit ≤ larger) (memoize : Bool)
    (resolver : Option (Resolver σ)) (e : Expr) (world : World σ) :
    let short := Machine.start (eval ⟨{ depthLimit := limit, memoize }, resolver⟩ e) world
    let long := Machine.start (eval ⟨{ depthLimit := larger, memoize }, resolver⟩ e) world
    short = long ∨ ∃ after, short = .error (.tooDeep limit limit) after ∧
      after.lookups <+: (World.left long).lookups ∧ after.warnings <+: (World.left long).warnings ∧
      ∀ (name : String) (value : Int64), after.environment[name]? = some value →
        (World.left long).environment[name]? = some value := by
  dsimp only
  rw [start_eval, start_eval]
  let shorter : Evaluator σ := ⟨{ depthLimit := limit, memoize }, resolver⟩
  let longer : Evaluator σ := ⟨{ depthLimit := larger, memoize }, resolver⟩
  have cuts : CutsShort limit (shorter.direct 0 e) (longer.direct 0 e) := by
    have congruence : Congruence shorter longer (CutsShort limit) := cutsShort_congruence order
    apply congruence.direct
    · -- a lookup does not depend on the limit
      intro name _
      exact .refl (.lookup longer name)
    · exact fun op _ left right => .refl (.apply op left right)
  rcases cuts.ends world with same | ⟨after, cut, extended⟩
  · exact Or.inl same
  · exact Or.inr ⟨after, cut, extended.lookups_prefix, extended.warnings_prefix, extended.bindings⟩

/-- The right operand lies too deep, after the left one was resolved and kept. -/
theorem depth_limit_only_truncates_sum :
    2 ≤ 3 ∧ ∃ after, Machine.start (eval ⟨{ depthLimit := 2 }, some .scripted⟩
        (.binary .add (.name "a") (.paren (.number 1)))) ⟨∅, [("a", [.value 5])], []⟩ =
          .error (.tooDeep 2 2) after ∧
      after.lookups <+: (World.left (Machine.start (eval ⟨{ depthLimit := 3 }, some .scripted⟩
        (.binary .add (.name "a") (.paren (.number 1)))) ⟨∅, [("a", [.value 5])], []⟩)).lookups := by
  have order : 2 ≤ 3 := by decide
  have truncates := depth_limit_only_truncates order true (some Resolver.scripted)
    (.binary .add (.name "a") (.paren (.number 1))) ⟨∅, [("a", [.value 5])], []⟩
  have cut : ∃ after, Machine.start (eval ⟨{ depthLimit := 2 }, some .scripted⟩
      (.binary .add (.name "a") (.paren (.number 1)))) ⟨∅, [("a", [.value 5])], []⟩ =
        .error (.tooDeep 2 2) after := by
    rw [start_eval]
    exact ⟨_, rfl⟩
  have ran : ∃ final, Machine.start (eval ⟨{ depthLimit := 3 }, some .scripted⟩
      (.binary .add (.name "a") (.paren (.number 1)))) ⟨∅, [("a", [.value 5])], []⟩ =
        .ok 6 final := by
    rw [start_eval]
    exact ⟨_, rfl⟩
  obtain ⟨stopped, cut⟩ := cut
  obtain ⟨final, ran⟩ := ran
  rcases truncates with same | ⟨after, failed, asked, -⟩
  · rw [cut, ran] at same
    cases same
  · exact ⟨order, after, failed, asked⟩

end Evaluator

end Abacus
