import Abacus.Reading

set_option autoImplicit false

/- Readings as plain pairs: the value that was read and the lexemes after it, without the proof that something was
taken. Each reader has one equation here, and what is proved of readers is proved from these equations. -/
namespace Abacus

theorem Reading.length_lt_cons (first : Lexeme) (rest : List Lexeme) :
    rest.length < (first :: rest).length :=
  Nat.lt_succ_self _

def Reading.after {α : Type} (first : Lexeme) (value : α) (rest : List Lexeme) :
    Reading α (first :: rest) :=
  ⟨value, rest, length_lt_cons first rest⟩

namespace Read

variable {α β : Type} {input : List Lexeme}

def outcome (read : Read α input) : Except Halt (α × List Lexeme) :=
  read.map fun reading => (reading.value, reading.rest)

@[simp] theorem outcome_ok (reading : Reading α input) :
    outcome (.ok reading) = .ok (reading.value, reading.rest) := rfl

@[simp] theorem outcome_error (halt : Halt) :
    outcome (.error halt : Read α input) = .error halt := rfl

theorem length_lt_of_outcome {read : Read α input} {value : α} {rest : List Lexeme}
    (success : read.outcome = .ok (value, rest)) : rest.length < input.length := by
  cases read with
  | error halt => cases success
  | ok reading =>
      cases success
      exact reading.shorter

theorem bind_eq_ok_iff {ε : Type} {first : Except ε α} {next : α → Except ε β} {value : β} :
    first >>= next = .ok value ↔ ∃ between, first = .ok between ∧ next between = .ok value := by
  cases first with
  | error error => simp only [bind, Except.bind, reduceCtorEq, false_and, exists_false]
  | ok between => simp only [bind, Except.bind, Except.ok.injEq, exists_eq_left']

theorem outcome_sign (wanted : Lexeme) (expected : Expected) (input : List Lexeme) :
    (sign wanted expected input).outcome =
      match input with
      | [] => .error ⟨.unexpected expected none, []⟩
      | found :: rest =>
        if found = wanted then .ok ((), rest)
        else .error ⟨.unexpected expected (some found), found :: rest⟩ := by
  cases input with
  | nil => rfl
  | cons found rest =>
      by_cases same : found = wanted
      · simp only [sign, if_pos same, outcome_ok]
      · simp only [sign, if_neg same]
        rfl

@[simp] theorem outcome_sign_self (wanted : Lexeme) (expected : Expected) (rest : List Lexeme) :
    (sign wanted expected (wanted :: rest)).outcome = .ok ((), rest) := by
  simp only [outcome_sign, if_true]

theorem outcome_numbers (input : List Lexeme) :
    (numbers input).outcome = (do
      let (first, rest) ← (number input).outcome
      match rest with
      | .comma :: after =>
        let (others, rest) ← (numbers after).outcome
        return (first :: others, rest)
      | _ => return ([first], rest)) := by
  rw [numbers]
  cases number input with
  | error halt => rfl
  | ok first =>
      obtain ⟨value, rest, shorter⟩ := first
      cases rest with
      | nil => rfl
      | cons lexeme after =>
          cases lexeme with
          | comma =>
              dsimp only [bind, Except.bind, outcome_ok]
              cases numbers after <;> rfl
          | _ => rfl

theorem outcome_literalSet (input : List Lexeme) :
    (literalSet input).outcome = (do
      let (_, rest) ← (sign .lbracket .lbracket input).outcome
      let (values, rest) ← (numbers rest).outcome
      let (_, rest) ← (sign .rbracket .rbracket rest).outcome
      return (values, rest)) := by
  rw [literalSet]
  cases sign .lbracket .lbracket input with
  | error halt => rfl
  | ok opening =>
      simp only [bind, Except.bind, outcome_ok]
      cases numbers opening.rest with
      | error halt => rfl
      | ok values =>
          simp only [outcome_ok]
          cases sign .rbracket .rbracket values.rest <;> rfl

/-- The membership tests that follow a value do not depend on where its reading began. -/
theorem outcome_memberships_congr {other : List Lexeme} (value : Expr) (rest : List Lexeme)
    (shorter : rest.length < input.length) (shorterOther : rest.length < other.length) :
    (memberships (⟨value, rest, shorter⟩ : Reading Expr input)).outcome =
      (memberships (⟨value, rest, shorterOther⟩ : Reading Expr other)).outcome := by
  induction length : rest.length using Nat.strongRecOn generalizing value rest with
  | ind n ih =>
      rw [memberships, memberships]
      cases rest with
      | nil => rfl
      | cons lexeme after =>
          cases lexeme with
          | isIn =>
              dsimp only
              cases literalSet after with
              | error halt => rfl
              | ok set =>
                  have fewer := set.shorter
                  simp only [List.length_cons] at length
                  exact ih set.rest.length (by omega) (value.member set.value) set.rest _ _ rfl
          | _ => rfl

def membershipsFrom (value : Expr) (rest : List Lexeme) : Except Halt (Expr × List Lexeme) :=
  (memberships (Reading.after .semicolon value rest)).outcome

theorem outcome_memberships (left : Reading Expr input) :
    (memberships left).outcome = membershipsFrom left.value left.rest :=
  outcome_memberships_congr left.value left.rest _ _

theorem membershipsFrom_eq (value : Expr) (rest : List Lexeme) :
    membershipsFrom value rest =
      match rest with
      | .isIn :: after => do
        let (set, rest) ← (literalSet after).outcome
        membershipsFrom (.member value set) rest
      | _ => .ok (value, rest) := by
  rw [membershipsFrom, memberships]
  cases rest with
  | nil => rfl
  | cons lexeme after =>
      cases lexeme with
      | isIn =>
          dsimp only [Reading.after]
          cases literalSet after with
          | error halt => rfl
          | ok set => exact outcome_memberships _
      | _ => rfl

def comparison? : List Lexeme → Option BinaryOp
  | .connective (.binary op) :: _ => if op.isComparison then some op else none
  | _ => none

theorem outcome_unchained (comparison : Reading Expr input) :
    (unchained comparison).outcome =
      match comparison? comparison.rest with
      | some op => .error ⟨.chainedComparison op, comparison.rest⟩
      | none => .ok (comparison.value, comparison.rest) := by
  obtain ⟨value, rest, shorter⟩ := comparison
  cases rest with
  | nil => rfl
  | cons lexeme after =>
      cases lexeme with
      | connective op =>
          cases op with
          | binary op =>
              by_cases compares : op.isComparison = true
              · simp only [unchained, comparison?, if_pos compares, outcome_error]
              · simp only [unchained, comparison?, if_neg compares, outcome_ok]
          | logic op => rfl
      | _ => rfl

theorem outcome_links_congr {other : List Lexeme} (limit depth : Nat) (level : Level) (value : Expr)
    (rest : List Lexeme) (shorter : rest.length < input.length)
    (shorterOther : rest.length < other.length) :
    (links limit depth level (⟨value, rest, shorter⟩ : Reading Expr input)).outcome =
      (links limit depth level (⟨value, rest, shorterOther⟩ : Reading Expr other)).outcome := by
  induction length : rest.length using Nat.strongRecOn generalizing value rest with
  | ind n ih =>
      rw [links, links]
      cases rest with
      | nil => rfl
      | cons lexeme after =>
          cases lexeme with
          | connective op =>
              dsimp only
              by_cases stands : op.level = level
              · rw [if_pos stands, if_pos stands]
                cases operand limit depth level after with
                | error halt => rfl
                | ok right =>
                    dsimp only [bind, Except.bind]
                    by_cases compares : level.isComparison = true
                    · rw [if_pos compares, if_pos compares, outcome_unchained, outcome_unchained]
                    · rw [if_neg compares, if_neg compares]
                      have fewer := right.shorter
                      simp only [List.length_cons] at length
                      exact ih right.rest.length (by omega) (op.join value right.value) right.rest
                        _ _ rfl
              · rw [if_neg stands, if_neg stands]
                rfl
          | _ => rfl

/-- Joins to a value what operators of the level follow it. -/
def linksFrom (limit depth : Nat) (level : Level) (value : Expr) (rest : List Lexeme) :
    Except Halt (Expr × List Lexeme) :=
  (links limit depth level (Reading.after .semicolon value rest)).outcome

theorem outcome_links (limit depth : Nat) (level : Level) (left : Reading Expr input) :
    (links limit depth level left).outcome = linksFrom limit depth level left.value left.rest :=
  outcome_links_congr limit depth level left.value left.rest _ _

theorem linksFrom_eq (limit depth : Nat) (level : Level) (value : Expr) (rest : List Lexeme) :
    linksFrom limit depth level value rest =
      match rest with
      | .connective op :: after =>
        if op.level = level then do
          let (right, rest) ← (operand limit depth level after).outcome
          if level.isComparison then
            match comparison? rest with
            | some next => .error ⟨.chainedComparison next, rest⟩
            | none => .ok (op.join value right, rest)
          else linksFrom limit depth level (op.join value right) rest
        else .ok (value, rest)
      | _ => .ok (value, rest) := by
  rw [linksFrom, links]
  cases rest with
  | nil => rfl
  | cons lexeme after =>
      cases lexeme with
      | connective op =>
          dsimp only [Reading.after]
          by_cases stands : op.level = level
          · rw [if_pos stands, if_pos stands]
            cases operand limit depth level after with
            | error halt => rfl
            | ok right =>
                dsimp only [bind, Except.bind, outcome_ok]
                by_cases compares : level.isComparison = true
                · rw [if_pos compares, if_pos compares, outcome_unchained]
                · rw [if_neg compares, if_neg compares]
                  exact outcome_links limit depth level _
          · rw [if_neg stands, if_neg stands]
            rfl
      | _ => rfl

theorem linksFrom_of_other {limit depth : Nat} {level : Level} {value : Expr} {rest : List Lexeme}
    (other : ∀ op after, rest = .connective op :: after → op.level ≠ level) :
    linksFrom limit depth level value rest = .ok (value, rest) := by
  rw [linksFrom_eq]
  split
  · exact if_neg (other _ _ rfl)
  · rfl

theorem outcome_infixed (limit depth : Nat) (level : Level) (input : List Lexeme) :
    (infixed limit depth level input).outcome = (do
      let (left, rest) ← (operand limit depth level input).outcome
      linksFrom limit depth level left rest) := by
  rw [infixed]
  cases operand limit depth level input with
  | error halt => rfl
  | ok left => exact outcome_links limit depth level left

theorem outcome_operand (limit depth : Nat) (level : Level) (input : List Lexeme) :
    (operand limit depth level input).outcome =
      match level.tighter? with
      | some next => (infixed limit depth next input).outcome
      | none => (unary limit depth input).outcome := by
  rw [operand]
  cases level <;> rfl

theorem outcome_expression (limit depth : Nat) (input : List Lexeme) :
    (expression limit depth input).outcome =
      if depth < limit then do
        let (condition, rest) ← (infixed limit (depth + 1) .disjunction input).outcome
        match rest with
        | .question :: after =>
          let (yes, rest) ← (expression limit (depth + 1) after).outcome
          let (_, rest) ← (sign .colon .colon rest).outcome
          let (no, rest) ← (expression limit (depth + 1) rest).outcome
          return (.ternary condition yes no, rest)
        | _ => return (condition, rest)
      else .error ⟨.tooDeep (depth + 1) limit, input⟩ := by
  rw [expression]
  by_cases room : depth < limit
  · rw [if_pos room, if_pos room]
    cases infixed limit (depth + 1) .disjunction input with
    | error halt => rfl
    | ok condition =>
        obtain ⟨value, rest, shorter⟩ := condition
        cases rest with
        | nil => rfl
        | cons lexeme after =>
            cases lexeme with
            | question =>
                dsimp only [bind, Except.bind, outcome_ok]
                cases expression limit (depth + 1) after with
                | error halt => rfl
                | ok yes =>
                    dsimp only [outcome_ok]
                    cases sign .colon .colon yes.rest with
                    | error halt => rfl
                    | ok mark =>
                        dsimp only [outcome_ok]
                        cases expression limit (depth + 1) mark.rest <;> rfl
            | _ => rfl
  · rw [if_neg room, if_neg room]
    rfl

theorem outcome_prefixed (limit depth : Nat) (op : UnaryOp) {sign : Lexeme} (after : List Lexeme) :
    (prefixed limit depth op after : Read Expr (sign :: after)).outcome =
      if depth < limit then do
        let (inner, rest) ← (unary limit (depth + 1) after).outcome
        return (.unary op inner, rest)
      else .error ⟨.tooDeep (depth + 1) limit, after⟩ := by
  rw [prefixed]
  by_cases room : depth < limit
  · rw [if_pos room, if_pos room]
    cases unary limit (depth + 1) after <;> rfl
  · rw [if_neg room, if_neg room]
    rfl

/-- The unary operator that begins a phrase, and what it is applied to. -/
def unaryOp? : List Lexeme → Option (UnaryOp × List Lexeme)
  | .connective (.binary .sub) :: after => some (.neg, after)
  | .bang :: after => some (.not, after)
  | _ => none

theorem unaryOp?_eq_none {input : List Lexeme}
    (noMinus : ∀ after, input = .connective (.binary .sub) :: after → False)
    (noBang : ∀ after, input = .bang :: after → False) : unaryOp? input = none := by
  unfold unaryOp?
  split
  · exact absurd rfl (noMinus _)
  · exact absurd rfl (noBang _)
  · rfl

theorem exists_of_unaryOp? {input after : List Lexeme} {op : UnaryOp}
    (begins : unaryOp? input = some (op, after)) :
    ∃ sign, input = sign :: after ∧ ∀ rest, unaryOp? (sign :: rest) = some (op, rest) := by
  unfold unaryOp? at begins
  split at begins <;> cases begins
  · exact ⟨_, rfl, fun _ => rfl⟩
  · exact ⟨_, rfl, fun _ => rfl⟩

theorem outcome_unary (limit depth : Nat) (input : List Lexeme) :
    (unary limit depth input).outcome =
      match unaryOp? input with
      | none => do
        let (value, rest) ← (atom limit depth input).outcome
        membershipsFrom value rest
      | some (op, after) =>
        if depth < limit then do
          let (inner, rest) ← (unary limit (depth + 1) after).outcome
          return (.unary op inner, rest)
        else .error ⟨.tooDeep (depth + 1) limit, after⟩ := by
  rw [unary.eq_def]
  split
  · exact outcome_prefixed limit depth .neg _
  · exact outcome_prefixed limit depth .not _
  · rename_i noMinus noBang
    rw [unaryOp?_eq_none noMinus noBang]
    cases atom limit depth input with
    | error halt => rfl
    | ok value => exact outcome_memberships value

theorem outcome_atom (limit depth : Nat) (input : List Lexeme) :
    (atom limit depth input).outcome =
      match input with
      | .number text :: rest =>
        (match Literal.read text with
        | .ok value => .ok (.number value, rest)
        | .error _ => .error ⟨.invalidNumber text, .number text :: rest⟩)
      | .name text :: rest => .ok (.name text, rest)
      | .lparen :: rest => do
        let (inner, rest) ← (expression limit depth rest).outcome
        let (_, rest) ← (sign .rparen .rparen rest).outcome
        return (.paren inner, rest)
      | .lbracket :: rest => .error ⟨.listOutsideMembership, .lbracket :: rest⟩
      | input => .error ⟨.unexpected .expression input.head?, input⟩ := by
  rw [atom.eq_def]
  cases input with
  | nil => rfl
  | cons lexeme rest =>
      cases lexeme with
      | number text =>
          dsimp only [number]
          cases Literal.read text <;> rfl
      | lparen =>
          dsimp only
          cases expression limit depth rest with
          | error halt => rfl
          | ok inner =>
              dsimp only [bind, Except.bind, outcome_ok]
              cases sign .rparen .rparen inner.rest <;> rfl
      | _ => rfl

theorem outcome_variableName (input : List Lexeme) :
    (variableName input).outcome =
      match input with
      | .name text :: rest => .ok (text, rest)
      | input => .error ⟨.unexpected .variableName input.head?, input⟩ := by
  cases input with
  | nil => rfl
  | cons lexeme rest => cases lexeme <;> rfl

theorem outcome_terminator (input : List Lexeme) :
    (terminator input).outcome =
      match input with
      | .semicolon :: rest => .ok ((), rest)
      | input => .error ⟨.missingTerminator input.head?, input⟩ := by
  cases input with
  | nil => rfl
  | cons lexeme rest => cases lexeme <;> rfl

theorem outcome_statement (limit : Nat) (input : List Lexeme) :
    (statement limit input).outcome =
      match input with
      | .var :: rest => do
        let (name, rest) ← (variableName rest).outcome
        let (_, rest) ← (sign .assign .assign rest).outcome
        let (value, rest) ← (expression limit 0 rest).outcome
        let (_, rest) ← (terminator rest).outcome
        return (.assignment name value, rest)
      | input => do
        let (value, rest) ← (expression limit 0 input).outcome
        let (_, rest) ← (terminator rest).outcome
        return (.expression value, rest) := by
  have bare (input : List Lexeme) :
      outcome (do
        let value ← expression limit 0 input
        let stop ← terminator value.rest
        return value.andThen (stop.map fun _ => .expression value.value) : Read Statement input) =
      (do
        let (value, rest) ← (expression limit 0 input).outcome
        let (_, rest) ← (terminator rest).outcome
        return (.expression value, rest)) := by
    cases expression limit 0 input with
    | error halt => rfl
    | ok value =>
        dsimp only [bind, Except.bind, outcome_ok]
        cases terminator value.rest <;> rfl
  rw [statement.eq_def]
  cases input with
  | nil => exact bare []
  | cons lexeme rest =>
      cases lexeme with
      | var =>
          dsimp only
          cases variableName rest with
          | error halt => rfl
          | ok name =>
              dsimp only [bind, Except.bind, outcome_ok]
              cases sign .assign .assign name.rest with
              | error halt => rfl
              | ok sign =>
                  dsimp only [outcome_ok]
                  cases expression limit 0 sign.rest with
                  | error halt => rfl
                  | ok value =>
                      dsimp only [outcome_ok]
                      cases terminator value.rest <;> rfl
      | _ => exact bare (_ :: rest)

theorem program_eq {limit : Nat} (nonempty : input ≠ []) :
    program limit input = (do
      let (head, rest) ← (statement limit input).outcome
      let others ← program limit rest
      return head :: others) := by
  cases input with
  | nil => exact absurd rfl nonempty
  | cons first rest =>
      rw [program]
      cases statement limit (first :: rest) <;> rfl

theorem ne_nil_of_halts {limit : Nat} {halt : Halt} (halts : program limit input = .error halt) :
    input ≠ [] := by
  rintro rfl
  rw [program] at halts
  cases halts

end Read

end Abacus
