import Abacus.Proofs.ReadingInduction

set_option autoImplicit false

namespace Abacus

namespace Read

variable {α β : Type} {input rest : List Lexeme} {first : Lexeme}

def leaving (result : Except Problem α) (rest : List Lexeme) : Except Halt (α × List Lexeme) :=
  match result with
  | .ok value => .ok (value, rest)
  | .error problem => .error ⟨problem, rest⟩

/-- Of the input, the reader sees the lexemes that it takes and the first one after them. -/
def IsLocal (read : List Lexeme → Except Halt (α × List Lexeme)) (input : List Lexeme) : Prop :=
  ∃ taken rest result, input = taken ++ rest ∧
    ∀ other : List Lexeme, other.head? = rest.head? → read (taken ++ other) = leaving result other

theorem head?_append_congr {other : List Lexeme} (taken : List Lexeme)
    (sameHead : other.head? = rest.head?) : (taken ++ other).head? = (taken ++ rest).head? := by
  rw [List.head?_append, List.head?_append, sameHead]

namespace IsLocal

variable {read : List Lexeme → Except Halt (α × List Lexeme)}

/-- A reader that goes like a local one on all inputs that begin like this one is local as well. -/
theorem of_head {same : List Lexeme → Except Halt (α × List Lexeme)} (isLocal : IsLocal same input)
    (agree : ∀ other : List Lexeme, other.head? = input.head? → read other = same other) :
    IsLocal read input := by
  obtain ⟨taken, rest, result, rfl, sees⟩ := isLocal
  refine ⟨taken, rest, result, rfl, fun other sameHead => ?_⟩
  rw [agree _ (head?_append_congr taken sameHead)]
  exact sees other sameHead

theorem congr {same : List Lexeme → Except Halt (α × List Lexeme)}
    (equal : ∀ input, read input = same input) (isLocal : IsLocal same input) : IsLocal read input :=
  isLocal.of_head fun other _ => equal other

/-- A reader that takes nothing is local. -/
theorem stop (result : Except Problem α) : IsLocal (leaving result) input :=
  ⟨[], input, result, rfl, fun _ _ => rfl⟩

theorem at_end (result : Except Problem α) (stops : read [] = leaving result []) :
    IsLocal read [] := by
  refine (stop result).of_head fun other sameHead => ?_
  rw [List.head?_nil, List.head?_eq_none_iff] at sameHead
  rw [sameHead]
  exact stops

theorem at_head (result : Except Problem α)
    (stops : ∀ after, read (first :: after) = leaving result (first :: after)) :
    IsLocal read (first :: rest) := by
  refine (stop result).of_head fun other sameHead => ?_
  obtain ⟨after, rfl⟩ := List.head?_eq_some_iff.mp sameHead
  exact stops after

theorem cons {next : List Lexeme → Except Halt (α × List Lexeme)} (inside : IsLocal next rest)
    (goesOn : ∀ after, read (first :: after) = next after) : IsLocal read (first :: rest) := by
  obtain ⟨taken, left, result, rfl, sees⟩ := inside
  refine ⟨first :: taken, left, result, rfl, fun other sameHead => ?_⟩
  rw [List.cons_append, goesOn]
  exact sees other sameHead

theorem bind {next : α × List Lexeme → Except Halt (β × List Lexeme)} (before : IsLocal read input)
    (after : ∀ value rest, read input = .ok (value, rest) →
      IsLocal (fun rest => next (value, rest)) rest) :
    IsLocal (fun input => read input >>= next) input := by
  obtain ⟨taken, rest, result, rfl, sees⟩ := before
  have found := sees rest rfl
  cases result with
  | error problem =>
      refine ⟨taken, rest, .error problem, rfl, fun other sameHead => ?_⟩
      simp only [sees other sameHead, leaving, Except.bind, Bind.bind]
  | ok value =>
      obtain ⟨more, left, result, rfl, seesMore⟩ := after value rest found
      refine ⟨taken ++ more, left, result, (List.append_assoc _ _ _).symm, fun other sameHead => ?_⟩
      have sameStart := head?_append_congr more sameHead
      simp only [List.append_assoc, sees _ sameStart, leaving, Except.bind, Bind.bind]
      exact seesMore other sameHead

end IsLocal

theorem sign_isLocal (wanted : Lexeme) (expected : Expected) (input : List Lexeme) :
    IsLocal (fun input => (sign wanted expected input).outcome) input := by
  refine .congr (fun input => outcome_sign wanted expected input) ?_
  cases input with
  | nil => exact .at_end (.error _) rfl
  | cons found rest =>
      by_cases same : found = wanted
      · exact (IsLocal.stop (.ok ())).cons fun after => if_pos same
      · exact .at_head (.error _) fun after => if_neg same

theorem number_isLocal (input : List Lexeme) :
    IsLocal (fun input => (number input).outcome) input := by
  cases input with
  | nil => exact .at_end (.error _) rfl
  | cons lexeme rest =>
      cases lexeme with
      | number text =>
          cases found : Literal.read text with
          | error fault =>
              refine .at_head (.error (.invalidNumber text)) fun after => ?_
              simp only [number, found, outcome_error, leaving]
          | ok value =>
              refine (IsLocal.stop (.ok value)).cons fun after => ?_
              simp only [number, found, outcome_ok, leaving]
      | _ => exact .at_head (.error (.unexpected .numberLiteral (some _))) fun after => rfl

theorem numbers_isLocal (input : List Lexeme) :
    IsLocal (fun input => (numbers input).outcome) input := by
  induction length : input.length using Nat.strongRecOn generalizing input with
  | ind n ih =>
      refine .congr outcome_numbers ((number_isLocal input).bind fun first rest found => ?_)
      have shorter := length_lt_of_outcome found
      cases rest with
      | nil => exact .at_end (.ok [first]) rfl
      | cons lexeme after =>
          cases lexeme with
          | comma =>
              rw [List.length_cons] at shorter
              have others := ih after.length (by omega) after rfl
              exact (others.bind fun values rest _ => IsLocal.stop (.ok (first :: values))).cons fun _ => rfl
          | _ => exact .at_head (.ok [first]) fun after => rfl

theorem literalSet_isLocal (input : List Lexeme) :
    IsLocal (fun input => (literalSet input).outcome) input := by
  refine .congr outcome_literalSet ((sign_isLocal _ _ input).bind fun _ inside _ => ?_)
  refine (numbers_isLocal inside).bind fun values afterValues _ => ?_
  exact (sign_isLocal _ _ afterValues).bind fun _ rest _ => .stop (.ok values)

theorem membershipsFrom_isLocal (value : Expr) (rest : List Lexeme) :
    IsLocal (membershipsFrom value) rest := by
  induction length : rest.length using Nat.strongRecOn generalizing value rest with
  | ind n ih =>
      refine .congr (membershipsFrom_eq value) ?_
      cases rest with
      | nil => exact .at_end (.ok value) rfl
      | cons lexeme after =>
          cases lexeme with
          | isIn =>
              refine .cons ((literalSet_isLocal after).bind fun set left found => ?_) fun _ => rfl
              have shorter := length_lt_of_outcome found
              rw [List.length_cons] at length
              exact ih left.length (by omega) (.member value set) left rfl
          | _ => exact .at_head (.ok value) fun after => rfl

theorem comparison?_congr {other : List Lexeme} (sameHead : other.head? = rest.head?) :
    comparison? other = comparison? rest := by
  cases rest with
  | nil => rw [List.head?_eq_none_iff.mp sameHead]
  | cons lexeme after =>
      obtain ⟨others, rfl⟩ := List.head?_eq_some_iff.mp sameHead
      cases lexeme with
      | connective op => cases op <;> rfl
      | _ => rfl

theorem unaryOp?_congr {other : List Lexeme} (sameHead : other.head? = rest.head?)
    (absent : unaryOp? rest = none) : unaryOp? other = none := by
  cases rest with
  | nil => rw [List.head?_eq_none_iff.mp sameHead, absent]
  | cons lexeme after =>
      obtain ⟨others, rfl⟩ := List.head?_eq_some_iff.mp sameHead
      cases lexeme with
      | connective op =>
          cases op with
          | binary op => cases op <;> first | rfl | cases absent
          | logic op => rfl
      | bang => cases absent
      | _ => rfl

section Readers

variable {limit depth : Nat} {level : Level}

theorem expression_isLocal
    (condition : depth < limit →
      IsLocal (fun input => (infixed limit (depth + 1) .disjunction input).outcome) input)
    (branch : depth < limit → ∀ after, after.length + 1 < input.length →
      IsLocal (fun input => (expression limit (depth + 1) input).outcome) after) :
    IsLocal (fun input => (expression limit depth input).outcome) input := by
  by_cases room : depth < limit
  · refine .congr (fun input => (outcome_expression limit depth input).trans (if_pos room)) ?_
    refine (condition room).bind fun condition rest found => ?_
    have shorter := length_lt_of_outcome found
    cases rest with
    | nil => exact .at_end (.ok condition) rfl
    | cons lexeme after =>
        cases lexeme with
        | question =>
            refine .cons ((branch room after shorter).bind fun yes rest foundYes => ?_) fun _ => rfl
            refine (sign_isLocal .colon .colon rest).bind fun _ left foundMark => ?_
            have shorterYes := length_lt_of_outcome foundYes
            have shorterMark := length_lt_of_outcome foundMark
            rw [List.length_cons] at shorter
            refine (branch room left (by omega)).bind fun no _ _ => ?_
            exact .stop (.ok (Expr.ternary condition yes no))
        | _ => exact .at_head (.ok condition) fun after => rfl
  · refine .congr (fun input => (outcome_expression limit depth input).trans (if_neg room)) ?_
    exact .stop (.error (.tooDeep (depth + 1) limit))

theorem infixed_isLocal
    (first : IsLocal (fun input => (operand limit depth level input).outcome) input)
    (links : ∀ (value : Expr) (rest : List Lexeme), rest.length < input.length →
      IsLocal (linksFrom limit depth level value) rest) :
    IsLocal (fun input => (infixed limit depth level input).outcome) input := by
  refine .congr (outcome_infixed limit depth level) (first.bind fun value rest found => ?_)
  exact links value rest (length_lt_of_outcome found)

/-- Only whether a comparison follows another one depends on what comes after the operand. -/
theorem joined_isLocal {op : Connective} {value : Expr} {after : List Lexeme}
    (second : IsLocal (fun input => (operand limit depth op.level input).outcome) after)
    (links : ∀ (right : Expr) (rest : List Lexeme), rest.length < after.length →
      IsLocal (linksFrom limit depth op.level (op.join value right)) rest) :
    IsLocal (linksFrom limit depth op.level value) (.connective op :: after) := by
  refine .congr (linksFrom_eq limit depth op.level value) ?_
  refine .cons (second.bind fun right rest found => ?_) fun _ => if_pos rfl
  by_cases compares : op.level.isComparison = true
  · refine .congr (fun _ => if_pos compares) ?_
    cases chained : comparison? rest with
    | none =>
        refine (IsLocal.stop (.ok (op.join value right))).of_head fun other sameHead => ?_
        simp only [comparison?_congr sameHead, chained, leaving]
    | some next =>
        refine (IsLocal.stop (.error (.chainedComparison next))).of_head fun other sameHead => ?_
        simp only [comparison?_congr sameHead, chained, leaving]
  · refine .congr (fun _ => if_neg compares) ?_
    exact links right rest (length_lt_of_outcome found)

theorem unjoined_isLocal {value : Expr}
    (other : ∀ op after, input = .connective op :: after → op.level ≠ level) :
    IsLocal (linksFrom limit depth level value) input := by
  refine .congr (linksFrom_eq limit depth level value) ?_
  cases input with
  | nil => exact .at_end (.ok value) rfl
  | cons lexeme after =>
      cases lexeme with
      | connective op => exact .at_head (.ok value) fun _ => if_neg (other op after rfl)
      | _ => exact .at_head (.ok value) fun after => rfl

theorem operand_isLocal
    (tighter : ∀ next, level.tighter? = some next →
      IsLocal (fun input => (infixed limit depth next input).outcome) input)
    (tightest : level.tighter? = none →
      IsLocal (fun input => (unary limit depth input).outcome) input) :
    IsLocal (fun input => (operand limit depth level input).outcome) input := by
  refine .congr (outcome_operand limit depth level) ?_
  cases step : level.tighter? with
  | some next => exact tighter next step
  | none => exact tightest step

theorem signed_isLocal (op : UnaryOp)
    (inside : IsLocal (fun input => (unary limit depth input).outcome) input) :
    IsLocal (fun input => do
      let (inner, rest) ← (unary limit depth input).outcome
      return (Expr.unary op inner, rest)) input :=
  inside.bind fun inner _ _ => .stop (.ok (Expr.unary op inner))

theorem tested_isLocal
    (leading : IsLocal (fun input => (atom limit depth input).outcome) input) :
    IsLocal (fun input => do
      let (value, rest) ← (atom limit depth input).outcome
      membershipsFrom value rest) input :=
  leading.bind fun value rest _ => membershipsFrom_isLocal value rest

theorem prefixed_isLocal {op : UnaryOp} (begins : ∀ after, unaryOp? (first :: after) = some (op, after))
    (inside : depth < limit → IsLocal (fun input => (unary limit (depth + 1) input).outcome) rest) :
    IsLocal (fun input => (unary limit depth input).outcome) (first :: rest) := by
  by_cases room : depth < limit
  · refine (signed_isLocal op (inside room)).cons fun after => ?_
    rw [outcome_unary, begins]
    exact if_pos room
  · refine (IsLocal.stop (.error (.tooDeep (depth + 1) limit))).cons fun after => ?_
    rw [outcome_unary, begins]
    exact if_neg room

theorem unary_isLocal
    (signed : ∀ op after, unaryOp? input = some (op, after) → depth < limit →
      IsLocal (fun input => (unary limit (depth + 1) input).outcome) after)
    (unsigned : unaryOp? input = none →
      IsLocal (fun input => (atom limit depth input).outcome) input) :
    IsLocal (fun input => (unary limit depth input).outcome) input := by
  cases begins : unaryOp? input with
  | some found =>
      obtain ⟨op, after⟩ := found
      obtain ⟨sign, rfl, same⟩ := exists_of_unaryOp? begins
      exact prefixed_isLocal same (signed op after begins)
  | none =>
      refine (tested_isLocal (unsigned begins)).of_head fun other sameHead => ?_
      rw [outcome_unary, unaryOp?_congr sameHead begins]

theorem atom_isLocal
    (inner : ∀ after, input = .lparen :: after →
      IsLocal (fun input => (expression limit depth input).outcome) after) :
    IsLocal (fun input => (atom limit depth input).outcome) input := by
  refine .congr (outcome_atom limit depth) ?_
  cases input with
  | nil => exact .at_end (.error (.unexpected .expression none)) rfl
  | cons lexeme after =>
      cases lexeme with
      | number text =>
          cases found : Literal.read text with
          | error fault =>
              refine .at_head (.error (.invalidNumber text)) fun _ => ?_
              simp only [found, leaving]
          | ok value =>
              refine (IsLocal.stop (.ok (.number value))).cons fun _ => ?_
              simp only [found, leaving]
      | name text => exact (IsLocal.stop (.ok (.name text))).cons fun _ => rfl
      | lparen =>
          refine .cons ((inner after rfl).bind fun inner rest _ => ?_) fun _ => rfl
          exact (sign_isLocal .rparen .rparen rest).bind fun _ _ _ => .stop (.ok (Expr.paren inner))
      | lbracket => exact .at_head (.error .listOutsideMembership) fun _ => rfl
      | _ => exact .at_head (.error (.unexpected .expression (some _))) fun _ => rfl

theorem readers_isLocal (limit : Nat) : EveryReader
    (fun depth => IsLocal fun input => (expression limit depth input).outcome)
    (fun depth level => IsLocal fun input => (infixed limit depth level input).outcome)
    (fun depth level value => IsLocal (linksFrom limit depth level value))
    (fun depth level => IsLocal fun input => (operand limit depth level input).outcome)
    (fun depth => IsLocal fun input => (unary limit depth input).outcome)
    (fun depth => IsLocal fun input => (atom limit depth input).outcome) :=
  everyReader limit (fun _ _ => expression_isLocal) (fun _ _ _ => infixed_isLocal)
    (fun _ _ _ _ => joined_isLocal) (fun _ _ _ _ => unjoined_isLocal) (fun _ _ _ => operand_isLocal)
    (fun _ _ => unary_isLocal) (fun _ _ => atom_isLocal)

end Readers

theorem variableName_isLocal (input : List Lexeme) :
    IsLocal (fun input => (variableName input).outcome) input := by
  refine .congr outcome_variableName ?_
  cases input with
  | nil => exact .at_end (.error (.unexpected .variableName none)) rfl
  | cons lexeme rest =>
      cases lexeme with
      | name text => exact (IsLocal.stop (.ok text)).cons fun _ => rfl
      | _ => exact .at_head (.error (.unexpected .variableName (some _))) fun after => rfl

theorem terminator_isLocal (input : List Lexeme) :
    IsLocal (fun input => (terminator input).outcome) input := by
  refine .congr outcome_terminator ?_
  cases input with
  | nil => exact .at_end (.error (.missingTerminator none)) rfl
  | cons lexeme rest =>
      cases lexeme with
      | semicolon => exact (IsLocal.stop (.ok ())).cons fun _ => rfl
      | _ => exact .at_head (.error (.missingTerminator (some _))) fun after => rfl

theorem terminated_isLocal (limit : Nat) (input : List Lexeme) :
    IsLocal (fun input => do
      let (value, rest) ← (expression limit 0 input).outcome
      let (_, rest) ← (terminator rest).outcome
      return (Statement.expression value, rest)) input := by
  refine ((readers_isLocal limit).expression 0 input).bind fun value rest _ => ?_
  exact (terminator_isLocal rest).bind fun _ rest _ => .stop (.ok (Statement.expression value))

theorem statement_isLocal (limit : Nat) (input : List Lexeme) :
    IsLocal (fun input => (Read.statement limit input).outcome) input := by
  have bare := terminated_isLocal limit input
  refine .congr (outcome_statement limit) ?_
  cases input with
  | nil => exact bare.of_head fun other sameHead => by rw [List.head?_eq_none_iff.mp sameHead]
  | cons lexeme rest =>
      cases lexeme with
      | var =>
          refine .cons ((variableName_isLocal rest).bind fun name rest _ => ?_) fun _ => rfl
          refine (sign_isLocal _ _ rest).bind fun _ rest _ => ?_
          refine ((readers_isLocal limit).expression 0 rest).bind fun value rest _ => ?_
          exact (terminator_isLocal rest).bind fun _ rest _ => .stop (.ok (Statement.assignment name value))
      | _ =>
          refine bare.of_head fun other sameHead => ?_
          obtain ⟨others, rfl⟩ := List.head?_eq_some_iff.mp sameHead
          rfl

/-- Where the reading of a program halts, it halts again in front of all lexemes that begin like those that are
left. -/
theorem program_halts_alike {limit : Nat} {halt : Halt} (halts : Read.program limit input = .error halt) :
    ∃ taken, input = taken ++ halt.rest ∧ ∀ other : List Lexeme, other.head? = halt.rest.head? →
      Read.program limit (taken ++ other) = .error ⟨halt.problem, other⟩ := by
  induction length : input.length using Nat.strongRecOn generalizing input with
  | ind n ih =>
      have filled := ne_nil_of_halts halts
      obtain ⟨taken, rest, result, rfl, sees⟩ := statement_isLocal limit input
      simp only at sees
      have unread (other : List Lexeme) (sameHead : other.head? = rest.head?) : taken ++ other ≠ [] := by
        intro empty
        obtain ⟨rfl, rfl⟩ := List.append_eq_nil_iff.mp empty
        exact filled (List.head?_eq_none_iff.mp sameHead.symm)
      have found := sees rest rfl
      rw [program_eq filled, found] at halts
      cases result with
      | error problem =>
          cases halts
          refine ⟨taken, rfl, fun other sameHead => ?_⟩
          rw [program_eq (unread other sameHead), sees other sameHead]
          rfl
      | ok statement =>
          have shorter := length_lt_of_outcome found
          rw [length] at shorter
          cases others : Read.program limit rest with
          | ok program =>
              simp only [leaving, bind, Except.bind, others] at halts
              cases halts
          | error inner =>
              simp only [leaving, bind, Except.bind, others, Except.error.injEq] at halts
              subst halts
              obtain ⟨more, parts, alike⟩ := ih rest.length shorter others rfl
              refine ⟨taken ++ more, by rw [parts, List.append_assoc], fun other sameHead => ?_⟩
              have sameStart : (more ++ other).head? = rest.head? :=
                parts ▸ head?_append_congr more sameHead
              rw [List.append_assoc, program_eq (unread _ sameStart), sees _ sameStart]
              simp only [leaving, bind, Except.bind, alike other sameHead]

end Read

end Abacus
