import Abacus.Proofs.DepthTruncation

set_option autoImplicit false

namespace Abacus

variable {σ : Type}

/-- What is a chain is one without parentheses too. -/
theorem Expr.isChained_ungrouped {e : Expr} (chained : e.isChained = true) :
    e.ungrouped.isChained = true := by
  cases e with
  | binary | logic | member => rfl
  | _ => cases chained

namespace Evaluator

variable {evaluator : Evaluator σ} {e left : Expr} {depth shallower : Nat}

/-- Wherever the expression is evaluated, without its parentheses and no deeper it does the same, or with them it is cut
short. -/
def OnlyGroups (evaluator : Evaluator σ) (e : Expr) : Prop :=
  ∀ depth shallower, depth < evaluator.options.depthLimit → shallower ≤ depth →
    CutsShort evaluator.options.depthLimit (evaluator.inPlace depth e)
      (evaluator.inPlace shallower e.ungrouped)

namespace OnlyGroups

theorem direct (groups : evaluator.OnlyGroups e) (room : depth ≤ evaluator.options.depthLimit)
    (order : shallower ≤ depth) :
    CutsShort evaluator.options.depthLimit (evaluator.direct depth e)
      (evaluator.direct shallower e.ungrouped) := by
  refine .within room (evaluator.direct_grows shallower e.ungrouped) fun open_ => ?_
  rw [Evaluator.direct, Evaluator.within, if_pos (Nat.lt_of_le_of_lt order open_)]
  exact groups depth shallower open_ order

/-- Parentheses cost one level, and to leave them out costs none. -/
theorem paren (groups : evaluator.OnlyGroups e) (room : depth < evaluator.options.depthLimit)
    (order : shallower ≤ depth) :
    CutsShort evaluator.options.depthLimit (evaluator.direct (depth + 1) e)
      (evaluator.inPlace shallower e.ungrouped) := by
  have grows := evaluator.inPlace_grows e.ungrouped (Nat.lt_of_le_of_lt order room)
  exact .within room grows fun open_ => groups (depth + 1) shallower open_ (Nat.le_succ_of_le order)

/-- An operand that leads may become a chain when its parentheses go, and then it starts no deeper than before. -/
theorem leading (groups : evaluator.OnlyGroups left) (room : depth < evaluator.options.depthLimit)
    (order : shallower ≤ depth) :
    CutsShort evaluator.options.depthLimit (evaluator.leading depth left (evaluator.inPlace · left))
      (evaluator.leading shallower left.ungrouped (evaluator.inPlace · left.ungrouped)) := by
  unfold Evaluator.leading
  by_cases chained : left.isChained = true
  · rw [if_pos chained, if_pos (Expr.isChained_ungrouped chained)]
    exact groups depth shallower room order
  · rw [if_neg chained]
    split
    · exact groups.paren room order
    · exact groups.direct room (Nat.succ_le_succ order)

end OnlyGroups

theorem onlyGroups (evaluator : Evaluator σ) (e : Expr) : evaluator.OnlyGroups e := by
  -- at all depths at once: each pair of parentheses that goes puts more levels between the two
  induction e with
  | number value => exact fun _ _ _ _ => .refl (.pure value)
  | name text => exact fun _ _ _ _ => .refl (.lookup evaluator text)
  | unary op operand ih =>
      intro depth shallower room order
      have inside := ih.direct (Nat.succ_le_of_lt room) (Nat.succ_le_succ order)
      exact inside.bind fun _ => .refl (.pure _)
  | paren inner ih => exact fun _ _ room order => ih.paren room order
  | binary op left right ihLeft ihRight =>
      intro depth shallower room order
      have before := ihLeft.leading room order
      have after := ihRight.direct (Nat.succ_le_of_lt room) (Nat.succ_le_succ order)
      exact before.bind fun _ => after.bind fun _ => .refl (.apply op _ _)
  | logic op left right ihLeft ihRight =>
      intro depth shallower room order
      have before := ihLeft.leading room order
      have after := ihRight.direct (Nat.succ_le_of_lt room) (Nat.succ_le_succ order)
      cases op with
      | and =>
          refine before.bind fun _ => ?_
          split
          · exact .refl (.pure 0)
          · exact after.bind fun _ => .refl (.pure _)
      | or =>
          refine before.bind fun _ => ?_
          split
          · exact .refl (.pure 1)
          · exact after.bind fun _ => .refl (.pure _)
  | member value set ih =>
      intro depth shallower room order
      exact (ih.leading room order).bind fun _ => .refl (.pure _)
  | ternary condition yes no ihCondition ihYes ihNo =>
      intro depth shallower room order
      have inner : depth + 1 ≤ evaluator.options.depthLimit := room
      have deeper : shallower + 1 ≤ depth + 1 := Nat.succ_le_succ order
      refine (ihCondition.direct inner deeper).bind fun _ => ?_
      split
      · exact ihYes.direct inner deeper
      · exact ihNo.direct inner deeper

/-- Where the evaluation of an expression does not go too deep, that of the expression without parentheses comes to the
same value or error, and leaves the same world: the same bindings, with the same questions asked and the same faults met
on the way. -/
theorem eval_ungrouped (evaluator : Evaluator σ) (e : Expr) (world : World σ)
    (fits : ∀ (depth limit : Nat) (after : World σ),
      Machine.start (evaluator.eval e) world ≠ .error (.tooDeep depth limit) after) :
    Machine.start (evaluator.eval e.ungrouped) world = Machine.start (evaluator.eval e) world := by
  rw [start_eval] at fits ⊢
  rw [start_eval]
  have cuts := (evaluator.onlyGroups e).direct (Nat.zero_le _) (Nat.le_refl 0)
  rcases cuts.ends world with same | ⟨after, cut, -⟩
  · exact same.symm
  · exact absurd cut (fits _ _ after)

/-- Three chains become one. The limit just suffices for the parentheses; a name is asked for on the way, and a link is
skipped. -/
theorem eval_ungrouped_chains :
    let e : Expr := .member (.paren (.logic .or (.paren (.binary .add (.name "a") (.number 1)))
      (.name "b"))) [1]
    let world : World Script := ⟨∅, [("a", [.value 5])], []⟩
    e.ungrouped = .member (.logic .or (.binary .add (.name "a") (.number 1)) (.name "b")) [1] ∧
    ∃ after, Machine.start (eval ⟨{ depthLimit := 6 }, some .scripted⟩ e) world = .ok 1 after ∧
      Machine.start (eval ⟨{ depthLimit := 6 }, some .scripted⟩ e.ungrouped) world = .ok 1 after := by
  intro e world
  have ran : ∃ after, Machine.start (eval ⟨{ depthLimit := 6 }, some .scripted⟩ e) world =
      .ok 1 after := by
    rw [start_eval]
    exact ⟨_, rfl⟩
  obtain ⟨after, ran⟩ := ran
  have fits : ∀ (depth limit : Nat) (stopped : World Script),
      Machine.start (eval ⟨{ depthLimit := 6 }, some .scripted⟩ e) world ≠
        .error (.tooDeep depth limit) stopped := by
    intro depth limit stopped failed
    rw [ran] at failed
    cases failed
  refine ⟨rfl, after, ran, ?_⟩
  rw [eval_ungrouped _ e world fits, ran]

end Evaluator

end Abacus
