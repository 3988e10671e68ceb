import Abacus.Proofs.ParserMirror

set_option autoImplicit false

namespace Abacus

theorem Level.isOperator_iff {level : Level} {lexeme : Lexeme} :
    level.isOperator (some lexeme) = true ↔ ∃ op, lexeme = .connective op ∧ op.level = level := by
  cases lexeme with
  | connective found =>
      constructor
      · intro stands
        refine ⟨found, rfl, ?_⟩
        rcases found with op | op <;> cases op <;> cases level <;> first | rfl | cases stands
      · rintro ⟨op, same, rfl⟩
        cases same
        rcases found with op | op <;> cases op <;> rfl
  | _ =>
      constructor
      · intro stands
        cases level <;> cases stands
      · rintro ⟨op, same, -⟩
        cases same

namespace Parser

variable {α : Type} {parser : Parser} {input rest : List Lexeme} {lexeme : Lexeme}

theorem binaryOp_of_current {op : BinaryOp} (current : parser.current = some (.binary op)) :
    binaryOp parser = some (.ok op, parser) := by
  obtain ⟨held, place, scanner, scans, taken⟩ := parser
  obtain rfl : held = some (.binary op) := current
  rfl

/-- A token that was seen to be an operator of a level is the operator that is made of it. -/
theorem connective_of_current {op : Connective} (current : parser.current = some (.connective op)) :
    connective op.level parser = some (.ok op, parser) := by
  obtain ⟨held, place, scanner, scans, taken⟩ := parser
  obtain rfl : held = some (.connective op) := current
  rcases op with op | op <;> cases op <;> rfl

/-- Behind a comma there are numbers once more. -/
theorem run_commas : commas.run = (do
    let found ← token
    if found == some .comma then do
      advance
      numbers
    else return []) := by
  rw [Loop.run]
  simp only [commas, numbers, bind_assoc]

/-- A program is a statement and then a program, or nothing at the end of the text. -/
theorem program_eq (limit : Nat) : program limit = (do
    let found ← token
    if found.isSome then do
      let first ← statement limit
      let others ← program limit
      return first :: others
    else return []) := by
  change (statements limit).run = _
  rw [Loop.run]
  rfl

namespace Mirrors

variable {limit depth : Nat} {level : Level} {left value : Expr}

theorem expect {wanted : Lexeme} (inside : wanted ≠ .semicolon) (expected : Expected)
    (input : List Lexeme) :
    Mirrors (Parser.expect wanted expected) 1 0 input (Read.sign wanted expected input).outcome := by
  rw [Read.outcome_sign]
  refine seen ?_
  cases input with
  | nil => exact unexpected 1 0 expected []
  | cons found rest =>
      simp only [List.head?_cons, Option.some.injEq]
      by_cases same : found = wanted
      · subst same
        rw [if_pos rfl, if_pos rfl]
        exact (advance found rest).inside inside
      · rw [if_neg same, if_neg same]
        exact unexpected 1 0 expected (found :: rest)

theorem number (text : String) (rest : List Lexeme) :
    Mirrors Parser.number 1 0 (.number text :: rest) (Read.number (.number text :: rest)).outcome := by
  refine seen ?_
  simp only [List.head?_cons, Lexeme.literal, Lexeme.text, Read.number]
  cases Literal.read text with
  | ok value => exact advancing (pure value rest) Lexeme.noConfusion
  | error fault => exact fail 1 0 (.invalidNumber text) _

theorem numberLiteral (input : List Lexeme) :
    Mirrors Parser.numberLiteral 1 0 input (Read.number input).outcome := by
  refine seen ?_
  cases input with
  | nil => exact unexpected 1 0 .numberLiteral []
  | cons lexeme rest =>
      cases lexeme with
      | number text => exact number text rest
      | _ => exact unexpected 1 0 .numberLiteral (_ :: rest)

theorem numbers (input : List Lexeme) :
    Mirrors Parser.numbers 1 0 input (Read.numbers input).outcome := by
  induction length : input.length using Nat.strongRecOn generalizing input with
  | ind n ih =>
      rw [Read.outcome_numbers, Parser.numbers]
      refine (numberLiteral input).andThen fun first left found => ?_
      rw [run_commas, bind_assoc]
      refine seen ?_
      have shorter := Read.length_lt_of_outcome found
      cases left with
      | nil => exact pure [first] []
      | cons lexeme after =>
          cases lexeme with
          | comma =>
              rw [List.length_cons] at shorter
              have others := (ih after.length (by omega) after rfl).value (first :: ·)
              exact ((others.mono (Nat.zero_le 1)).advancing Lexeme.noConfusion).mono (Nat.zero_le 1)
          | _ => exact pure [first] (_ :: after)

theorem literalSet (input : List Lexeme) :
    Mirrors Parser.literalSet 1 0 input (Read.literalSet input).outcome := by
  rw [Read.outcome_literalSet]
  refine (expect Lexeme.noConfusion .lbracket input).andThen fun _ inside _ => ?_
  refine ((numbers inside).andThen fun values left _ => ?_).mono (Nat.zero_le 1)
  exact ((expect Lexeme.noConfusion .rbracket left).mono (Nat.zero_le 1)).value fun _ => values

theorem memberships (limit depth : Nat) (value : Expr) (rest : List Lexeme) :
    Mirrors (Routine.run limit depth (.memberships value)) 0 0 rest (Read.membershipsFrom value rest) := by
  induction length : rest.length using Nat.strongRecOn generalizing value rest with
  | ind n ih =>
      rw [Read.membershipsFrom_eq, Routine.run.eq_def]
      refine seen ?_
      cases rest with
      | nil => exact pure value []
      | cons lexeme after =>
          cases lexeme with
          | isIn =>
              refine (advancing ?_ Lexeme.noConfusion).mono (Nat.zero_le 1)
              refine ((literalSet after).andThen fun set left found => ?_).mono (Nat.zero_le 1)
              have shorter := Read.length_lt_of_outcome found
              rw [List.length_cons] at length
              exact ih left.length (by omega) (.member value set) left rfl
          | _ => exact pure value (_ :: after)

theorem primary (lead : Mirrors (Routine.run limit depth .atom) 1 0 input (Read.atom limit depth input).outcome) :
    Mirrors (Routine.run limit depth .primary) 1 0 input (do
      let (value, rest) ← (Read.atom limit depth input).outcome
      Read.membershipsFrom value rest) := by
  rw [Routine.run.eq_def]
  exact lead.andThen fun value rest _ => memberships limit depth value rest

theorem comparison {op : BinaryOp}
    (right : Mirrors (Routine.run limit depth (.operand level)) 1 0 rest
      (Read.operand limit depth level rest).outcome) :
    Mirrors (Routine.run limit depth (.comparison level left)) 1 0 (.binary op :: rest) (do
      let (right, rest) ← (Read.operand limit depth level rest).outcome
      match Read.comparison? rest with
      | some next => .error ⟨.chainedComparison next, rest⟩
      | none => .ok (.binary op left right, rest)) := by
  rw [Routine.run.eq_def]
  refine known (fun _ => binaryOp_of_current) ?_
  refine advancing ((right.andThen fun value after _ => seen ?_).mono (Nat.zero_le 1)) Lexeme.noConfusion
  cases after with
  | nil => exact pure (Expr.binary op left value) []
  | cons lexeme others =>
      cases lexeme with
      | connective next =>
          cases next with
          | binary next =>
              by_cases compares : next.isComparison = true
              · simp only [List.head?_cons, BinaryOp.ofToken?, Read.comparison?, if_pos compares]
                exact fail 0 0 (.chainedComparison next) _
              · simp only [List.head?_cons, BinaryOp.ofToken?, Read.comparison?, if_neg compares]
                exact pure (Expr.binary op left value) _
          | logic next => exact pure (Expr.binary op left value) _
      | _ => exact pure (Expr.binary op left value) (_ :: others)

/-- A branch follows the condition, and another one follows the mark behind that branch. -/
theorem ternary
    (head : Mirrors (Routine.run limit depth (.infixed .disjunction)) 1 0 input
      (Read.infixed limit depth .disjunction input).outcome)
    (branch : ∀ after, after.length + 1 < input.length →
      Mirrors (Routine.run limit depth .expression) 1 0 after (Read.expression limit depth after).outcome) :
    Mirrors (Routine.run limit depth .ternary) 1 0 input (do
      let (condition, rest) ← (Read.infixed limit depth .disjunction input).outcome
      match rest with
      | .question :: after =>
        let (yes, rest) ← (Read.expression limit depth after).outcome
        let (_, rest) ← (Read.sign .colon .colon rest).outcome
        let (no, rest) ← (Read.expression limit depth rest).outcome
        return (.ternary condition yes no, rest)
      | _ => return (condition, rest)) := by
  rw [Routine.run.eq_def]
  refine head.andThen fun condition rest found => seen ?_
  have shorter := Read.length_lt_of_outcome found
  cases rest with
  | nil => exact pure condition []
  | cons lexeme after =>
      cases lexeme with
      | question =>
          refine (advancing ?_ Lexeme.noConfusion).mono (Nat.zero_le 1)
          refine ((branch after shorter).andThen fun yes rest foundYes => ?_).mono (Nat.zero_le 1)
          refine ((expect Lexeme.noConfusion .colon _).andThen fun _ left foundMark => ?_).mono (Nat.zero_le 1)
          have shorterYes := Read.length_lt_of_outcome foundYes
          have shorterMark := Read.length_lt_of_outcome foundMark
          rw [List.length_cons] at shorter
          exact ((branch left (by omega)).mono (Nat.zero_le 1)).value (Expr.ternary condition yes)
      | _ => exact pure condition (_ :: after)

theorem expression
    (inside : depth < limit → Mirrors (Routine.run limit (depth + 1) .ternary) 1 0 input (do
      let (condition, rest) ← (Read.infixed limit (depth + 1) .disjunction input).outcome
      match rest with
      | .question :: after =>
        let (yes, rest) ← (Read.expression limit (depth + 1) after).outcome
        let (_, rest) ← (Read.sign .colon .colon rest).outcome
        let (no, rest) ← (Read.expression limit (depth + 1) rest).outcome
        return (.ternary condition yes no, rest)
      | _ => return (condition, rest))) :
    Mirrors (Routine.run limit depth .expression) 1 0 input (Read.expression limit depth input).outcome := by
  rw [Routine.run.eq_def]
  change Mirrors (Routine.run limit depth (.nested .ternary)) _ _ _ _
  rw [Routine.run.eq_def, Read.outcome_expression]
  by_cases room : depth < limit
  · simp only [if_pos room]
    exact inside room
  · simp only [if_neg room]
    exact fail 1 0 (.tooDeep (depth + 1) limit) input

theorem infixed
    (first : Mirrors (Routine.run limit depth (.operand level)) 1 0 input
      (Read.operand limit depth level input).outcome)
    (links : ∀ value rest, rest.length < input.length →
      Mirrors (Routine.run limit depth (.links level value)) 0 0 rest
        (Read.linksFrom limit depth level value rest)) :
    Mirrors (Routine.run limit depth (.infixed level)) 1 0 input
      (Read.infixed limit depth level input).outcome := by
  rw [Read.outcome_infixed, Routine.run.eq_def]
  exact first.andThen fun value rest found => links value rest (Read.length_lt_of_outcome found)

/-- What follows the first operand of a level. -/
theorem links {op : Connective} {after : List Lexeme}
    (right : Mirrors (Routine.run limit depth (.operand op.level)) 1 0 after
      (Read.operand limit depth op.level after).outcome)
    (more : ∀ value rest, rest.length < after.length →
      Mirrors (Routine.run limit depth (.links op.level (op.join left value))) 0 0 rest
        (Read.linksFrom limit depth op.level (op.join left value) rest)) :
    Mirrors (Routine.run limit depth (.links op.level left)) 1 0 (.connective op :: after)
      (Read.linksFrom limit depth op.level left (.connective op :: after)) := by
  have stands : op.level.isOperator (some (.connective op)) = true := Level.isOperator_iff.mpr ⟨op, rfl, rfl⟩
  rw [Routine.run.eq_def, Read.linksFrom_eq]
  refine seen ?_
  simp only [List.head?_cons, stands, if_true]
  by_cases compares : op.level.isComparison = true
  · simp only [if_pos compares]
    cases op with
    | binary op => exact comparison right
    | logic op => cases op <;> cases compares
  · simp only [if_neg compares]
    refine known (fun _ => connective_of_current) (advancing ?_ Lexeme.noConfusion)
    refine (right.andThen fun value rest found => ?_).mono (Nat.zero_le 1)
    exact more value rest (Read.length_lt_of_outcome found)

theorem links_of_other {rest : List Lexeme}
    (other : ∀ op after, rest = .connective op :: after → op.level ≠ level) :
    Mirrors (Routine.run limit depth (.links level left)) 0 0 rest
      (Read.linksFrom limit depth level left rest) := by
  have absent : ¬level.isOperator rest.head? = true := by
    cases rest with
    | nil => cases level <;> exact Bool.false_ne_true
    | cons lexeme after =>
        rw [List.head?_cons, Level.isOperator_iff]
        rintro ⟨op, rfl, same⟩
        exact other op after rfl same
  rw [Routine.run.eq_def, Read.linksFrom_of_other other]
  refine seen ?_
  rw [if_neg absent]
  exact pure left rest

theorem operand
    (tighter : ∀ next, level.tighter? = some next →
      Mirrors (Routine.run limit depth (.infixed next)) 1 0 input (Read.infixed limit depth next input).outcome)
    (tightest : level.tighter? = none →
      Mirrors (Routine.run limit depth .unary) 1 0 input (Read.unary limit depth input).outcome) :
    Mirrors (Routine.run limit depth (.operand level)) 1 0 input
      (Read.operand limit depth level input).outcome := by
  rw [Read.outcome_operand, Routine.run.eq_def]
  cases step : level.tighter? with
  | some next =>
      simp only [step]
      exact tighter next step
  | none =>
      simp only [step]
      exact tightest step

theorem atom (inside : ∀ after, input = .lparen :: after →
      Mirrors (Routine.run limit depth .expression) 1 0 after (Read.expression limit depth after).outcome) :
    Mirrors (Routine.run limit depth .atom) 1 0 input (Read.atom limit depth input).outcome := by
  rw [Routine.run.eq_def, Read.outcome_atom]
  refine seen ?_
  cases input with
  | nil => exact unexpected 1 0 .expression []
  | cons lexeme rest =>
      cases lexeme with
      | number text =>
          have reads := (number text rest).value Expr.number
          simp only [Read.number] at reads
          dsimp only [List.head?_cons]
          cases found : Literal.read text with
          | ok value =>
              rw [found] at reads
              exact reads
          | error fault =>
              rw [found] at reads
              exact reads
      | name text => exact advancing (pure (Expr.name text) rest) Lexeme.noConfusion
      | lparen =>
          refine advancing ?_ Lexeme.noConfusion
          refine ((inside rest rfl).andThen fun inner left _ => ?_).mono (Nat.zero_le 1)
          exact ((expect Lexeme.noConfusion .rparen left).mono (Nat.zero_le 1)).value fun _ => Expr.paren inner
      | lbracket => exact fail 1 0 .listOutsideMembership _
      | _ => exact unexpected 1 0 .expression (_ :: rest)

/-- The operand of a unary operator, one level deeper. -/
theorem prefixed
    (inside : depth < limit → Mirrors (Routine.run limit (depth + 1) .unary) 1 0 input
      (Read.unary limit (depth + 1) input).outcome) :
    Mirrors (Routine.run limit depth (.nested .unary)) 1 0 input
      (if depth < limit then (Read.unary limit (depth + 1) input).outcome
      else .error ⟨.tooDeep (depth + 1) limit, input⟩) := by
  rw [Routine.run.eq_def]
  by_cases room : depth < limit
  · simp only [if_pos room]
    exact inside room
  · simp only [if_neg room]
    exact fail 1 0 (.tooDeep (depth + 1) limit) input

theorem ofToken?_head? (input : List Lexeme) :
    UnaryOp.ofToken? input.head? = (Read.unaryOp? input).map Prod.fst := by
  cases input with
  | nil => rfl
  | cons lexeme rest =>
      cases lexeme with
      | connective op =>
          cases op with
          | binary op => cases op <;> rfl
          | logic op => rfl
      | _ => rfl

theorem signed {op : UnaryOp} (begins : Read.unaryOp? (lexeme :: rest) = some (op, rest))
    (inside : depth < limit → Mirrors (Routine.run limit (depth + 1) .unary) 1 0 rest
      (Read.unary limit (depth + 1) rest).outcome) :
    Mirrors (Routine.run limit depth .unary) 1 0 (lexeme :: rest)
      (Read.unary limit depth (lexeme :: rest)).outcome := by
  have sign := ofToken?_head? (lexeme :: rest)
  rw [begins] at sign
  have noTerminator : lexeme ≠ .semicolon := by
    rintro rfl
    cases begins
  have joined := (((prefixed inside).mono (Nat.zero_le 1)).value (Expr.unary op)).advancing noTerminator
  rw [Routine.run.eq_def, Read.outcome_unary, begins]
  refine seen ?_
  rw [sign]
  by_cases room : depth < limit
  · simp only [if_pos room] at joined ⊢
    exact joined
  · simp only [if_neg room] at joined ⊢
    exact joined

theorem unary
    (withSign : ∀ op after, Read.unaryOp? input = some (op, after) → depth < limit →
      Mirrors (Routine.run limit (depth + 1) .unary) 1 0 after (Read.unary limit (depth + 1) after).outcome)
    (unsigned : Read.unaryOp? input = none →
      Mirrors (Routine.run limit depth .atom) 1 0 input (Read.atom limit depth input).outcome) :
    Mirrors (Routine.run limit depth .unary) 1 0 input (Read.unary limit depth input).outcome := by
  cases begins : Read.unaryOp? input with
  | some found =>
      obtain ⟨op, after⟩ := found
      obtain ⟨sign, rfl, same⟩ := Read.exists_of_unaryOp? begins
      exact signed begins (withSign op after begins)
  | none =>
      have noSign := ofToken?_head? input
      rw [begins] at noSign
      rw [Routine.run.eq_def, Read.outcome_unary, begins]
      refine seen ?_
      rw [noSign]
      exact primary (unsigned begins)

/-- Every part of parsing an expression mirrors a reader. -/
theorem routines (limit : Nat) : Read.EveryReader
    (fun depth input =>
      Mirrors (Routine.run limit depth .expression) 1 0 input (Read.expression limit depth input).outcome)
    (fun depth level input =>
      Mirrors (Routine.run limit depth (.infixed level)) 1 0 input (Read.infixed limit depth level input).outcome)
    (fun depth level value rest =>
      Mirrors (Routine.run limit depth (.links level value)) 0 0 rest (Read.linksFrom limit depth level value rest))
    (fun depth level input =>
      Mirrors (Routine.run limit depth (.operand level)) 1 0 input (Read.operand limit depth level input).outcome)
    (fun depth input => Mirrors (Routine.run limit depth .unary) 1 0 input (Read.unary limit depth input).outcome)
    (fun depth input => Mirrors (Routine.run limit depth .atom) 1 0 input (Read.atom limit depth input).outcome) := by
  apply Read.everyReader limit
  case expression =>
    exact fun depth input condition branch => expression fun room => ternary (condition room) (branch room)
  case infixed => exact fun depth level input first more => infixed first more
  case joined => exact fun depth op value after right more => (links right more).mono (Nat.zero_le 1)
  case unjoined => exact fun depth level value rest other => links_of_other other
  case operand => exact fun depth level input tighter tightest => operand tighter tightest
  case unary => exact fun depth input withSign unsigned => unary withSign unsigned
  case atom => exact fun depth input inside => atom inside

theorem variableName (input : List Lexeme) :
    Mirrors Parser.variableName 1 0 input (Read.variableName input).outcome := by
  rw [Read.outcome_variableName]
  refine seen ?_
  cases input with
  | nil => exact unexpected 1 0 .variableName []
  | cons lexeme rest =>
      cases lexeme with
      | name text => exact advancing (pure text rest) Lexeme.noConfusion
      | _ => exact unexpected 1 0 .variableName (_ :: rest)

/-- A terminator is one token, and the only one that ends a statement. -/
theorem terminator (input : List Lexeme) :
    Mirrors Parser.terminator 1 1 input (Read.terminator input).outcome := by
  rw [Read.outcome_terminator]
  refine seen ?_
  cases input with
  | nil => exact fail 1 1 (.missingTerminator none) []
  | cons lexeme rest =>
      cases lexeme with
      | semicolon => exact advance .semicolon rest
      | _ => exact fail 1 1 (.missingTerminator (some _)) (_ :: rest)

/-- An expression and its terminator. -/
theorem terminated (limit : Nat) (make : Expr → Statement) (input : List Lexeme) :
    Mirrors (do
      let value ← Routine.expression.run limit 0
      Parser.terminator
      return make value) (1 + 1) 1 input (do
      let (value, rest) ← (Read.expression limit 0 input).outcome
      let (_, rest) ← (Read.terminator rest).outcome
      return (make value, rest)) :=
  ((routines limit).expression 0 input).bind fun value rest _ => (terminator rest).value fun _ => make value

/-- A statement takes at least two tokens, one of which is its terminator. -/
theorem statement (limit : Nat) (input : List Lexeme) :
    Mirrors (Parser.statement limit) (1 + 1) 1 input (Read.statement limit input).outcome := by
  rw [Read.outcome_statement]
  refine seen ?_
  cases input with
  | nil => exact terminated limit .expression []
  | cons lexeme rest =>
      cases lexeme with
      | var =>
          refine ((variableName rest).andThen fun name left _ => ?_).behind Lexeme.noConfusion
          refine ((expect Lexeme.noConfusion .assign left).andThen fun _ left _ => ?_).mono (Nat.zero_le 1)
          exact (terminated limit (Statement.assignment name) left).mono (Nat.zero_le _)
      | _ => exact terminated limit .expression (_ :: rest)

end Mirrors

end Parser

end Abacus
