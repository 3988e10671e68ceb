import Abacus.Proofs.ReadingOutcome

set_option autoImplicit false

namespace Abacus

namespace Read

/-- A property for each reader of expressions that holds of all its calls. -/
structure EveryReader (onExpression : Nat → List Lexeme → Prop)
    (onInfixed : Nat → Level → List Lexeme → Prop) (onLinks : Nat → Level → Expr → List Lexeme → Prop)
    (onOperand : Nat → Level → List Lexeme → Prop) (onUnary onAtom : Nat → List Lexeme → Prop) : Prop where
  expression (depth : Nat) (input : List Lexeme) : onExpression depth input
  infixed (depth : Nat) (level : Level) (input : List Lexeme) : onInfixed depth level input
  links (depth : Nat) (level : Level) (value : Expr) (rest : List Lexeme) : onLinks depth level value rest
  operand (depth : Nat) (level : Level) (input : List Lexeme) : onOperand depth level input
  unary (depth : Nat) (input : List Lexeme) : onUnary depth input
  atom (depth : Nat) (input : List Lexeme) : onAtom depth input

/-- Induction along the calls of the readers: a property of each reader that follows from those of the readers that it
calls. -/
theorem everyReader (limit : Nat) {onExpression : Nat → List Lexeme → Prop}
    {onInfixed : Nat → Level → List Lexeme → Prop} {onLinks : Nat → Level → Expr → List Lexeme → Prop}
    {onOperand : Nat → Level → List Lexeme → Prop} {onUnary onAtom : Nat → List Lexeme → Prop}
    (expression : ∀ depth input, (depth < limit → onInfixed (depth + 1) .disjunction input) →
      (depth < limit → ∀ after, after.length + 1 < input.length → onExpression (depth + 1) after) →
        onExpression depth input)
    (infixed : ∀ depth level input, onOperand depth level input →
      (∀ value rest, rest.length < input.length → onLinks depth level value rest) →
        onInfixed depth level input)
    (joined : ∀ depth op value after, onOperand depth (Connective.level op) after →
      (∀ right rest, rest.length < after.length → onLinks depth op.level (op.join value right) rest) →
        onLinks depth op.level value (.connective op :: after))
    (unjoined : ∀ depth level value rest,
      (∀ op after, rest = .connective op :: after → op.level ≠ level) → onLinks depth level value rest)
    (operand : ∀ depth level input,
      (∀ next, Level.tighter? level = some next → onInfixed depth next input) →
        (level.tighter? = none → onUnary depth input) → onOperand depth level input)
    (unary : ∀ depth input,
      (∀ op after, unaryOp? input = some (op, after) → depth < limit → onUnary (depth + 1) after) →
        (unaryOp? input = none → onAtom depth input) → onUnary depth input)
    (atom : ∀ depth input, (∀ after, input = .lparen :: after → onExpression depth after) →
      onAtom depth input) :
    EveryReader onExpression onInfixed onLinks onOperand onUnary onAtom := by
  have signed {depth : Nat} {op : UnaryOp} {sign : Lexeme} {after : List Lexeme}
      (begins : unaryOp? (sign :: after) = some (op, after))
      (inside : depth < limit → onUnary (depth + 1) after) : onUnary depth (sign :: after) := by
    refine unary depth _ (fun other rest same => ?_) fun absent => ?_
    · cases begins.symm.trans same
      exact inside
    · cases begins.symm.trans absent
  -- the property of the operand of a sign is that of its reader, one level deeper
  have every := Read.expression.mutual_induct limit onExpression onInfixed
    (fun depth level _ left => onLinks depth level left.value left.rest) onOperand onUnary onAtom
    (fun depth _ _ after => depth < limit → onUnary (depth + 1) after)
    ?within ?full ?infixed ?joined ?elsewhere ?ended ?tighter ?tightest ?minus ?bang ?unsigned
    ?number ?name ?paren ?bracket ?other ?signed ?tooDeep
  case within =>
    intro depth input _ condition yes _
    refine expression depth input (fun _ => condition) fun _ after shorter => ?_
    exact yes ⟨.number 0, .question :: after, shorter⟩ after rfl
  case full =>
    intro depth input full
    exact expression depth input (absurd · full) (absurd · full)
  case infixed =>
    intro depth level input ofOperand links
    exact infixed depth level input ofOperand fun value rest shorter => links ⟨value, rest, shorter⟩
  case joined =>
    intro depth input left op after stop ofOperand links
    rw [stop]
    exact joined depth op left.value after ofOperand fun right rest shorter =>
      links ⟨right, rest, shorter⟩
  case elsewhere =>
    intro depth level input left op after stop elsewhere
    refine unjoined depth level left.value left.rest fun other rest same => ?_
    cases stop.symm.trans same
    exact elsewhere
  case ended =>
    intro depth level input left absent
    exact unjoined depth level left.value left.rest fun op after same => (absent op after same).elim
  case tighter =>
    intro depth level input next tighter ofInfixed
    refine operand depth level input (fun other same => ?_) fun tightest => ?_
    · cases tighter.symm.trans same
      exact ofInfixed
    · cases tighter.symm.trans tightest
  case tightest =>
    intro depth level input tightest ofUnary
    refine operand depth level input (fun next tighter => ?_) fun _ => ofUnary
    cases tightest.symm.trans tighter
  case minus => exact fun depth after inside => signed rfl inside
  case bang => exact fun depth after inside => signed rfl inside
  case unsigned =>
    intro depth input noMinus noBang ofAtom
    refine unary depth input (fun op after begins => ?_) fun _ => ofAtom
    cases (unaryOp?_eq_none noMinus noBang).symm.trans begins
  case number => exact fun depth text rest => atom depth _ fun _ same => by cases same
  case name => exact fun depth text rest => atom depth _ fun _ same => by cases same
  case paren =>
    intro depth rest inside
    refine atom depth _ fun after same => ?_
    cases same
    exact inside
  case bracket => exact fun depth rest => atom depth _ fun _ same => by cases same
  case other =>
    intro depth input _ _ noParen _
    exact atom depth input fun after same => (noParen after same).elim
  case signed => exact fun _ _ _ _ _ inside _ => inside
  case tooDeep => exact fun _ _ _ _ full room => absurd room full
  obtain ⟨ofExpression, ofInfixed, ofLinks, ofOperand, ofUnary, ofAtom, -⟩ := every
  refine ⟨ofExpression, ofInfixed, fun depth level value rest => ?_, ofOperand, ofUnary, ofAtom⟩
  exact ofLinks depth level _ (Reading.after .semicolon value rest)

end Read

end Abacus
