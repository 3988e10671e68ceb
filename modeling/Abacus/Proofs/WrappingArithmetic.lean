import Abacus.Proofs.DirectEvaluation
import Abacus.Proofs.EvaluationRules

set_option autoImplicit false

/- Division and remainder belong together. Over the integers, the quotient rounded toward zero times the divisor leaves the
remainder. Values wrap around, and one quotient does so: that of the least value by minus one. It still leaves its
remainder, since sums and products are kept by wrapping around. -/
namespace Abacus

def truncated (x : ℚ) : ℤ := if 0 ≤ x then ⌊x⌋ else ⌈x⌉

theorem truncated_of_nonneg {x : ℚ} (nonneg : 0 ≤ x) : truncated x = ⌊x⌋ := if_pos nonneg

theorem truncated_neg (x : ℚ) : truncated (-x) = -truncated x := by
  rcases lt_trichotomy x 0 with negative | rfl | positive
  · rw [truncated_of_nonneg (by linarith), truncated, if_neg (not_le.mpr negative), Int.floor_neg]
  · rfl
  · rw [truncated_of_nonneg positive.le, truncated, if_neg (by linarith), Int.ceil_neg]

theorem truncated_natCast_div (m n : ℕ) : truncated ((m : ℚ) / n) = (m : ℤ).tdiv n := by
  have nonneg : 0 ≤ (m : ℚ) / n := div_nonneg m.cast_nonneg n.cast_nonneg
  rw [truncated_of_nonneg nonneg, Rat.floor_natCast_div_natCast,
    Int.tdiv_eq_ediv_of_nonneg (Int.natCast_nonneg m)]

/-- The quotient of integers is their exact quotient rounded toward zero. -/
theorem truncated_intCast_div (m n : ℤ) : truncated ((m : ℚ) / n) = m.tdiv n := by
  -- a sign of either operand goes before the whole
  obtain ⟨a, rfl | rfl⟩ := m.eq_nat_or_neg <;> obtain ⟨b, rfl | rfl⟩ := n.eq_nat_or_neg <;>
    simp only [Int.cast_neg, Int.cast_natCast, neg_div, div_neg, truncated_neg, Int.neg_tdiv,
      Int.tdiv_neg, truncated_natCast_div]

section Values

variable {left right : Int64}

theorem div_eq_ofInt (left right : Int64) :
    left / right = Int64.ofInt (left.toInt.tdiv right.toInt) := by
  rw [Int64.ofInt_tdiv left.minValue_le_toInt left.toInt_le right.minValue_le_toInt right.toInt_le,
    Int64.ofInt_toInt, Int64.ofInt_toInt]

theorem mod_eq_ofInt (left right : Int64) :
    left % right = Int64.ofInt (left.toInt.tmod right.toInt) := by
  rw [← Int64.toInt_mod, Int64.ofInt_toInt]

/-- The product of the quotient and the divisor leaves the remainder, also where the quotient wraps around. -/
theorem div_mul_add_mod (left right : Int64) : left / right * right + left % right = left := by
  calc left / right * right + left % right
    _ = Int64.ofInt (left.toInt.tdiv right.toInt) * Int64.ofInt right.toInt +
          Int64.ofInt (left.toInt.tmod right.toInt) := by
        rw [div_eq_ofInt, mod_eq_ofInt, Int64.ofInt_toInt]
    _ = Int64.ofInt (left.toInt.tdiv right.toInt * right.toInt + left.toInt.tmod right.toInt) := by
        rw [Int64.ofInt_add, Int64.ofInt_mul]
    _ = left := by rw [Int.tdiv_mul_add_tmod, Int64.ofInt_toInt]

theorem abs_toInt_mod_lt (left : Int64) (nonzero : right ≠ 0) :
    |(left % right).toInt| < |right.toInt| := by
  have apart : right.toInt ≠ 0 := by rwa [← Int64.toInt_zero, Ne, Int64.toInt_inj]
  have below : left.toInt.natAbs % right.toInt.natAbs < right.toInt.natAbs :=
    Nat.mod_lt _ (Int.natAbs_pos.mpr apart)
  rw [Int64.toInt_mod, Int.abs_eq_natAbs, Int.abs_eq_natAbs, Int.natAbs_tmod]
  exact Int.ofNat_lt.mpr below

theorem mod_eq_zero_or_sign_eq (left right : Int64) :
    left % right = 0 ∨ (left % right).toInt.sign = left.toInt.sign := by
  rw [← Int64.toInt_inj, Int64.toInt_mod, Int64.toInt_zero, ← Int.sign_eq_zero_iff_zero,
    Int.sign_tmod]
  split
  · exact Or.inl rfl
  · exact Or.inr rfl

/-- All quotients but one are values. -/
theorem toInt_div_eq_truncated_iff :
    (left / right).toInt = truncated (left.toInt / right.toInt) ↔
      ¬(left = Int64.minValue ∧ right = -1) := by
  rw [truncated_intCast_div]
  constructor
  · rintro exact ⟨rfl, rfl⟩
    revert exact
    decide
  · intro fits
    rcases not_and_or.mp fits with greater | other
    · exact Int64.toInt_div_of_ne_left left right greater
    · exact Int64.toInt_div_of_ne_right left right other

end Values

namespace BinaryOp

/-- What the quotient and the remainder of a division have to be. Only the quotient of the least value by minus one is
not the exact quotient rounded toward zero. -/
structure IsDivision (left right quotient remainder : Int64) : Prop where
  rejoins : (mul.apply quotient right >>= (add.apply · remainder)) = .ok left
  remainder_lt : |remainder.toInt| < |right.toInt|
  remainder_sign : remainder = 0 ∨ remainder.toInt.sign = left.toInt.sign
  quotient_exact : quotient.toInt = truncated (left.toInt / right.toInt) ↔
    ¬(left = Int64.minValue ∧ right = -1)
  quotient_wraps : left = Int64.minValue → right = -1 → quotient = Int64.minValue ∧ remainder = 0

theorem isDivision_of_ne_zero (left : Int64) {right : Int64} (nonzero : right ≠ 0) :
    IsDivision left right (left / right) (left % right) where
  rejoins := congrArg Except.ok (div_mul_add_mod left right)
  remainder_lt := abs_toInt_mod_lt left nonzero
  remainder_sign := mod_eq_zero_or_sign_eq left right
  quotient_exact := toInt_div_eq_truncated_iff
  quotient_wraps := by
    rintro rfl rfl
    decide

/-- By a divisor other than zero there are a quotient and a remainder, and they are those of a division. An operator
fails on its operands exactly if it divides by zero. -/
theorem div_rem_isDivision :
    (∀ left right : Int64, right ≠ 0 → ∃ quotient remainder,
      div.apply left right = .ok quotient ∧ rem.apply left right = .ok remainder ∧
        IsDivision left right quotient remainder) ∧
    ∀ (op : BinaryOp) (left right : Int64),
      (∃ error, op.apply left right = .error error) ↔ (op = div ∨ op = rem) ∧ right = 0 := by
  constructor
  · intro left right nonzero
    exact ⟨left / right, left % right, if_neg nonzero, if_neg nonzero,
      isDivision_of_ne_zero left nonzero⟩
  · intro op left right
    simp only [apply_eq_error_iff]
    constructor
    · rintro ⟨_, divides, zero, _⟩
      exact ⟨divides, zero⟩
    · rintro ⟨divides, zero⟩
      exact ⟨_, divides, zero, rfl⟩

/-- The one quotient that is no value, and one that is rounded up. -/
theorem div_rem_isDivision_least :
    ((-1 : Int64) ≠ 0 ∧ div.apply Int64.minValue (-1) = .ok Int64.minValue ∧
      rem.apply Int64.minValue (-1) = .ok 0 ∧ IsDivision Int64.minValue (-1) Int64.minValue 0) ∧
    ((2 : Int64) ≠ 0 ∧ div.apply (-7) 2 = .ok (-3) ∧ rem.apply (-7) 2 = .ok (-1) ∧
      IsDivision (-7) 2 (-3) (-1)) := by
  have negative : (-1 : Int64) ≠ 0 := by decide
  have positive : (2 : Int64) ≠ 0 := by decide
  constructor
  · obtain ⟨quotient, remainder, divided, leaves, division⟩ :=
      div_rem_isDivision.1 Int64.minValue (-1) negative
    cases divided
    cases leaves
    exact ⟨negative, rfl, rfl, division⟩
  · obtain ⟨quotient, remainder, divided, leaves, division⟩ :=
      div_rem_isDivision.1 (-7) 2 positive
    cases divided
    cases leaves
    exact ⟨positive, rfl, rfl, division⟩

end BinaryOp

variable {σ : Type}

/-- The expression is made of numbers, bound names, parentheses, negations, sums, differences and products, and the
integer is its value where nothing wraps around. -/
inductive Expr.HasExactValue (environment : Environment) : Expr → Int → Prop
  | number {value : Int64} : HasExactValue environment (.number value) value.toInt
  | name {text : String} {value : Int64} (bound : environment[text]? = some value) :
      HasExactValue environment (.name text) value.toInt
  | paren {inner : Expr} {n : Int} (inside : HasExactValue environment inner n) :
      HasExactValue environment (.paren inner) n
  | neg {operand : Expr} {n : Int} (negated : HasExactValue environment operand n) :
      HasExactValue environment (.unary .neg operand) (-n)
  | add {left right : Expr} {m n : Int} (before : HasExactValue environment left m)
      (after : HasExactValue environment right n) :
      HasExactValue environment (.binary .add left right) (m + n)
  | sub {left right : Expr} {m n : Int} (before : HasExactValue environment left m)
      (after : HasExactValue environment right n) :
      HasExactValue environment (.binary .sub left right) (m - n)
  | mul {left right : Expr} {m n : Int} (before : HasExactValue environment left m)
      (after : HasExactValue environment right n) :
      HasExactValue environment (.binary .mul left right) (m * n)

/-- Each integer is congruent to one value. -/
theorem toInt_modEq_iff {value : Int64} {n : Int} :
    value.toInt ≡ n [ZMOD 2 ^ 64] ↔ value = Int64.ofInt n := by
  constructor
  · intro congruent
    rw [eq_comm, Int64.ofInt_eq_iff_bmod_eq_toInt, ← Int.emod_bmod]
    have remainders : n % (2 ^ 64 : Nat) = value.toInt % (2 ^ 64 : Nat) := congruent.symm
    rw [remainders, Int.emod_bmod]
    exact Int.bmod_eq_of_le (Int64.le_toInt value) (Int64.toInt_lt value)
  · rintro rfl
    rw [Int64.toInt_ofInt]
    exact Int.bmod_emod

/-- In the world, which it leaves as it was, the action comes to the integer wrapped around, unless it goes too deep. -/
def WorldAction.Wraps (world : World σ) (n : Int) (action : WorldAction σ Int64) : Prop :=
  action world = .ok (Int64.ofInt n) world ∨
    ∃ depth limit, action world = .error (.tooDeep depth limit) world

namespace WorldAction.Wraps

variable {world : World σ} {m n : Int} {action : WorldAction σ Int64} {evaluator : Evaluator σ}
  {depth : Nat}

theorem value (value : Int64) : Wraps (σ := σ) world value.toInt (pure value) := by
  refine Or.inl ?_
  rw [Int64.ofInt_toInt]
  rfl

theorem bind {next : Int64 → WorldAction σ Int64} (head : Wraps world m action)
    (tail : Wraps world n (next (Int64.ofInt m))) : Wraps world n (action >>= next) := by
  rcases head with came | ⟨depth, limit, failed⟩
  · simp only [Wraps, Bind.bind, EStateM.bind, came]
    exact tail
  · refine Or.inr ⟨depth, limit, ?_⟩
    simp only [Bind.bind, EStateM.bind, failed]

theorem within (inside : Wraps world n action) : Wraps world n (evaluator.within depth action) := by
  unfold Evaluator.within
  split
  · exact inside
  · exact Or.inr ⟨_, _, rfl⟩

theorem leading {left : Expr} (inside : ∀ depth, Wraps world n (evaluator.inPlace depth left)) :
    Wraps world n (evaluator.leading depth left (evaluator.inPlace · left)) := by
  unfold Evaluator.leading
  split
  · exact inside depth
  · exact within (inside (depth + 1))

/-- An operator wraps its result around where it does so for operands that are wrapped around. -/
theorem binary {op : BinaryOp} {left right : Expr} {total : Int}
    (before : ∀ depth, Wraps world m (evaluator.inPlace depth left))
    (after : ∀ depth, Wraps world n (evaluator.inPlace depth right))
    (wraps : op.apply (Int64.ofInt m) (Int64.ofInt n) = .ok (Int64.ofInt total)) (depth : Nat) :
    Wraps world total (evaluator.inPlace depth (.binary op left right)) := by
  have applied : Wraps world total (ofExcept (op.apply (Int64.ofInt m) (Int64.ofInt n))) := by
    rw [wraps]
    exact Or.inl rfl
  exact (leading before).bind ((within (after (depth + 1))).bind applied)

end WorldAction.Wraps

namespace Evaluator

open WorldAction

theorem inPlace_wraps (evaluator : Evaluator σ) {world : World σ} {e : Expr} {n : Int}
    (valued : e.HasExactValue world.environment n) :
    ∀ depth, Wraps world n (evaluator.inPlace depth e) := by
  -- wrapping around is a homomorphism, so that each operator keeps the congruence
  induction valued with
  | number => exact fun _ => .value _
  | name bound =>
      intro depth
      refine Or.inl ?_
      rw [Int64.ofInt_toInt]
      exact lookup_bound bound
  | paren _ ih => exact fun depth => .within (ih (depth + 1))
  | neg _ ih =>
      intro depth
      refine (Wraps.within (ih (depth + 1))).bind (Or.inl ?_)
      rw [Int64.ofInt_neg]
      rfl
  | add _ _ before after => exact Wraps.binary before after (congrArg _ (Int64.ofInt_add _ _).symm)
  | sub _ _ before after => exact Wraps.binary before after (congrArg _ (Int64.ofInt_sub _ _).symm)
  | mul _ _ before after => exact Wraps.binary before after (congrArg _ (Int64.ofInt_mul _ _).symm)

/-- An expression made of numbers, bound names, parentheses, negations, sums, differences and products, whose evaluation
does not go too deep, comes to the one value that is congruent to its exact value. The world stays as it was. -/
theorem eval_modEq_exact (evaluator : Evaluator σ) {world : World σ} {e : Expr} {n : Int}
    (valued : e.HasExactValue world.environment n)
    (fits : ∀ (depth limit : Nat) (after : World σ),
      Machine.start (evaluator.eval e) world ≠ .error (.tooDeep depth limit) after) :
    ∃ value, Machine.start (evaluator.eval e) world = .ok value world ∧
      ∀ other : Int64, other.toInt ≡ n [ZMOD 2 ^ 64] ↔ other = value := by
  rw [start_eval] at fits ⊢
  have whole : Wraps world n (evaluator.direct 0 e) := .within (evaluator.inPlace_wraps valued 0)
  rcases whole with came | ⟨depth, limit, failed⟩
  · exact ⟨Int64.ofInt n, came, fun _ => toInt_modEq_iff⟩
  · exact absurd failed (fits depth limit world)

/-- The least value is its own negation, and the product wraps around once more. -/
theorem eval_modEq_exact_least :
    let e : Expr := .binary .mul (.unary .neg (.name "least")) (.paren (.binary .sub (.number 3) (.name "least")))
    let world : World Unit := ⟨(∅ : Environment).insert "least" Int64.minValue, (), []⟩
    e.HasExactValue world.environment (2 ^ 63 * (3 + 2 ^ 63)) ∧
    Machine.start (Evaluator.eval {} e) world = .ok Int64.minValue world ∧
    ∀ other : Int64, other.toInt ≡ 2 ^ 63 * (3 + 2 ^ 63) [ZMOD 2 ^ 64] ↔ other = Int64.minValue := by
  intro e world
  have bound : world.environment["least"]? = some Int64.minValue := by
    rw [Environment.getElem?_insert, if_pos rfl]
  have valued : e.HasExactValue world.environment (2 ^ 63 * (3 + 2 ^ 63)) :=
    .mul (.neg (.name bound)) (.paren (.sub .number (.name bound)))
  have ran : Machine.start (Evaluator.eval {} e) world = .ok Int64.minValue world := by
    rw [start_eval]
    rfl
  have fits : ∀ (depth limit : Nat) (after : World Unit),
      Machine.start (Evaluator.eval {} e) world ≠ .error (.tooDeep depth limit) after := by
    intro depth limit after failed
    rw [ran] at failed
    cases failed
  obtain ⟨value, came, unique⟩ := eval_modEq_exact {} valued fits
  rw [ran] at came
  cases came
  exact ⟨valued, ran, unique⟩

end Evaluator

end Abacus
