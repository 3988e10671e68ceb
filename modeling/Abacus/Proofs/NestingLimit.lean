import Abacus.Proofs.ProgramGrammar
import Abacus.Proofs.ReadingCompletion

set_option autoImplicit false

namespace Abacus

namespace Read

variable {α β : Type} {limit larger depth : Nat} {input rest : List Lexeme}

def leftOver : Except Halt (α × List Lexeme) → List Lexeme
  | .ok (_, rest) => rest
  | .error halt => halt.rest

/-- A reading does not go back behind the last so many lexemes. -/
def LeavesAtMost (bound : Nat) (result : Except Halt (α × List Lexeme)) : Prop :=
  (leftOver result).length ≤ bound

namespace LeavesAtMost

variable {bound : Nat}

theorem mono {result : Except Halt (α × List Lexeme)} {more : Nat}
    (leaves : LeavesAtMost bound result) (order : bound ≤ more) : LeavesAtMost more result :=
  Nat.le_trans leaves order

theorem bind {first : Except Halt (α × List Lexeme)}
    {next : α × List Lexeme → Except Halt (β × List Lexeme)} (head : LeavesAtMost bound first)
    (tail : ∀ value rest, LeavesAtMost rest.length (next (value, rest))) :
    LeavesAtMost bound (first >>= next) := by
  cases first with
  | error halt => exact head
  | ok found => exact (tail found.1 found.2).mono head

theorem value {first : Except Halt (α × List Lexeme)} (leaves : LeavesAtMost bound first) (f : α → β) :
    LeavesAtMost bound (do
      let (value, rest) ← first
      return (f value, rest)) :=
  leaves.bind fun _ _ => Nat.le_refl _

/-- A reader that sees only what it takes leaves no more than it was given. -/
theorem of_isLocal {read : List Lexeme → Except Halt (α × List Lexeme)} (isLocal : IsLocal read input) :
    LeavesAtMost input.length (read input) := by
  obtain ⟨taken, rest, result, rfl, sees⟩ := isLocal
  have found := sees rest rfl
  unfold LeavesAtMost
  rw [found, List.length_append]
  cases result <;> exact Nat.le_add_left _ _

end LeavesAtMost

/-- A reading under a limit against one under a larger limit: they came to the same, or the smaller limit stopped the
first one, and the second one went at least as far. -/
inductive CutShort (limit : Nat) :
    Except Halt (α × List Lexeme) → Except Halt (α × List Lexeme) → Prop
  | same {result : Except Halt (α × List Lexeme)} : CutShort limit result result
  | tooDeep {rest : List Lexeme} {second : Except Halt (α × List Lexeme)}
      (further : LeavesAtMost rest.length second) :
      CutShort limit (.error ⟨.tooDeep (limit + 1) limit, rest⟩) second

theorem CutShort.bind {first second : Except Halt (α × List Lexeme)}
    {next nextSecond : α × List Lexeme → Except Halt (β × List Lexeme)}
    (head : CutShort limit first second)
    (tail : ∀ value rest, first = .ok (value, rest) →
      CutShort limit (next (value, rest)) (nextSecond (value, rest)))
    (leaves : ∀ value rest, LeavesAtMost rest.length (nextSecond (value, rest))) :
    CutShort limit (first >>= next) (second >>= nextSecond) := by
  cases head with
  | same =>
      cases first with
      | error halt => exact .same
      | ok found => exact tail found.1 found.2 rfl
  | tooDeep further => exact .tooDeep (further.bind leaves)

/-- What only the value changes is cut short no earlier. -/
theorem CutShort.value {first second : Except Halt (α × List Lexeme)} (head : CutShort limit first second)
    (f : α → β) :
    CutShort limit
      (do
        let (value, rest) ← first
        return (f value, rest))
      (do
        let (value, rest) ← second
        return (f value, rest)) :=
  head.bind (fun _ _ _ => .same) fun _ _ => Nat.le_refl _

theorem leavesAtMost_sign (wanted : Lexeme) (expected : Expected) (input : List Lexeme) :
    LeavesAtMost input.length (sign wanted expected input).outcome :=
  .of_isLocal (sign_isLocal wanted expected input)

theorem leavesAtMost_expression (limit depth : Nat) (input : List Lexeme) :
    LeavesAtMost input.length (expression limit depth input).outcome :=
  .of_isLocal ((readers_isLocal limit).expression depth input)

theorem leavesAtMost_linksFrom (limit depth : Nat) (level : Level) (value : Expr)
    (rest : List Lexeme) : LeavesAtMost rest.length (linksFrom limit depth level value rest) :=
  .of_isLocal ((readers_isLocal limit).links depth level value rest)

theorem leavesAtMost_unary (limit depth : Nat) (input : List Lexeme) :
    LeavesAtMost input.length (unary limit depth input).outcome :=
  .of_isLocal ((readers_isLocal limit).unary depth input)

/-- What comes after the first branch of a ternary goes no further back than that branch. -/
theorem leavesAtMost_no (limit depth : Nat) (condition yes : Expr) (rest : List Lexeme) :
    LeavesAtMost rest.length (do
      let (_, rest) ← (sign .colon .colon rest).outcome
      let (no, rest) ← (expression limit (depth + 1) rest).outcome
      return (Expr.ternary condition yes no, rest)) :=
  (leavesAtMost_sign _ _ rest).bind fun _ rest =>
    (leavesAtMost_expression limit (depth + 1) rest).value fun no => Expr.ternary condition yes no

/-- What comes after the condition of an expression goes no further back than the condition. -/
theorem leavesAtMost_branches (limit depth : Nat) (condition : Expr) (rest : List Lexeme) :
    LeavesAtMost rest.length (do
      match rest with
      | .question :: after =>
        let (yes, rest) ← (expression limit (depth + 1) after).outcome
        let (_, rest) ← (sign .colon .colon rest).outcome
        let (no, rest) ← (expression limit (depth + 1) rest).outcome
        return (Expr.ternary condition yes no, rest)
      | _ => return (condition, rest)) := by
  cases rest with
  | nil => exact Nat.le_refl _
  | cons lexeme after =>
      cases lexeme with
      | question =>
          have shorter : after.length ≤ (Lexeme.question :: after).length := Nat.le_succ _
          have head := (leavesAtMost_expression limit (depth + 1) after).mono shorter
          exact head.bind fun yes rest => leavesAtMost_no limit depth condition yes rest
      | _ => exact Nat.le_refl _

section Readers

variable {level : Level} {after : List Lexeme}

theorem expression_cutShort (order : limit ≤ larger) (shallow : depth ≤ limit)
    (condition : depth < limit → CutShort limit (infixed limit (depth + 1) .disjunction input).outcome
      (infixed larger (depth + 1) .disjunction input).outcome)
    (branch : depth < limit → ∀ after, after.length + 1 < input.length →
      CutShort limit (expression limit (depth + 1) after).outcome
        (expression larger (depth + 1) after).outcome) :
    CutShort limit (expression limit depth input).outcome (expression larger depth input).outcome := by
  by_cases room : depth < limit
  · rw [outcome_expression, outcome_expression, if_pos room, if_pos (Nat.lt_of_lt_of_le room order)]
    refine (condition room).bind (fun chosen rest found => ?_) (leavesAtMost_branches larger depth)
    have shorter := length_lt_of_outcome found
    cases rest with
    | nil => exact .same
    | cons lexeme after =>
        cases lexeme with
        | question =>
            refine (branch room after shorter).bind (fun yes rest foundYes => ?_)
              (leavesAtMost_no larger depth chosen)
            refine CutShort.same.bind (fun _ left foundMark => ?_) fun _ left => ?_
            · have shorterYes := length_lt_of_outcome foundYes
              have shorterMark := length_lt_of_outcome foundMark
              rw [List.length_cons] at shorter
              exact (branch room left (by omega)).value fun no => Expr.ternary chosen yes no
            · have leaves := leavesAtMost_expression larger (depth + 1) left
              exact leaves.value fun no => Expr.ternary chosen yes no
        | _ => exact .same
  · obtain rfl : depth = limit := by omega
    rw [outcome_expression depth depth, if_neg room]
    exact .tooDeep (leavesAtMost_expression larger depth input)

theorem infixed_cutShort
    (first : CutShort limit (operand limit depth level input).outcome
      (operand larger depth level input).outcome)
    (links : ∀ value rest, rest.length < input.length →
      CutShort limit (linksFrom limit depth level value rest) (linksFrom larger depth level value rest)) :
    CutShort limit (infixed limit depth level input).outcome
      (infixed larger depth level input).outcome := by
  rw [outcome_infixed, outcome_infixed]
  refine first.bind (fun value rest found => ?_) (leavesAtMost_linksFrom larger depth level)
  exact links value rest (length_lt_of_outcome found)

theorem joined_cutShort {op : Connective} {value : Expr}
    (second : CutShort limit (operand limit depth op.level after).outcome
      (operand larger depth op.level after).outcome)
    (links : ∀ right rest, rest.length < after.length →
      CutShort limit (linksFrom limit depth op.level (op.join value right) rest)
        (linksFrom larger depth op.level (op.join value right) rest)) :
    CutShort limit (linksFrom limit depth op.level value (.connective op :: after))
      (linksFrom larger depth op.level value (.connective op :: after)) := by
  rw [linksFrom_eq, linksFrom_eq larger]
  simp only [if_true]
  by_cases compares : op.level.isComparison = true
  · simp only [if_pos compares]
    refine second.bind (fun _ _ _ => .same) fun right rest => ?_
    dsimp only
    split <;> exact Nat.le_refl _
  · simp only [if_neg compares]
    refine second.bind (fun right rest found => ?_) fun right rest => ?_
    · exact links right rest (length_lt_of_outcome found)
    · exact leavesAtMost_linksFrom larger depth op.level (op.join value right) rest

theorem operand_cutShort
    (tighter : ∀ next, level.tighter? = some next →
      CutShort limit (infixed limit depth next input).outcome (infixed larger depth next input).outcome)
    (tightest : level.tighter? = none →
      CutShort limit (unary limit depth input).outcome (unary larger depth input).outcome) :
    CutShort limit (operand limit depth level input).outcome
      (operand larger depth level input).outcome := by
  rw [outcome_operand, outcome_operand]
  cases step : level.tighter? with
  | some next => exact tighter next step
  | none => exact tightest step

/-- A unary operator nests its operand, which is read alike up to the limit. -/
theorem prefixed_cutShort {op : UnaryOp} (order : limit ≤ larger) (shallow : depth ≤ limit)
    (begins : unaryOp? input = some (op, after))
    (inside : depth < limit → CutShort limit (unary limit (depth + 1) after).outcome
      (unary larger (depth + 1) after).outcome) :
    CutShort limit (unary limit depth input).outcome (unary larger depth input).outcome := by
  rw [outcome_unary, outcome_unary, begins]
  dsimp only
  by_cases room : depth < limit
  · rw [if_pos room, if_pos (Nat.lt_of_lt_of_le room order)]
    exact (inside room).value fun inner => Expr.unary op inner
  · obtain rfl : depth = limit := by omega
    rw [if_neg room]
    refine .tooDeep ?_
    split
    · exact (leavesAtMost_unary larger (depth + 1) after).value fun inner => Expr.unary op inner
    · exact Nat.le_refl _

theorem unary_cutShort (order : limit ≤ larger) (shallow : depth ≤ limit)
    (signed : ∀ op after, unaryOp? input = some (op, after) → depth < limit →
      CutShort limit (unary limit (depth + 1) after).outcome (unary larger (depth + 1) after).outcome)
    (unsigned : unaryOp? input = none →
      CutShort limit (atom limit depth input).outcome (atom larger depth input).outcome) :
    CutShort limit (unary limit depth input).outcome (unary larger depth input).outcome := by
  cases begins : unaryOp? input with
  | some found => exact prefixed_cutShort order shallow begins (signed found.1 found.2 begins)
  | none =>
      rw [outcome_unary, outcome_unary, begins]
      refine (unsigned begins).bind (fun _ _ _ => .same) fun value rest => ?_
      exact .of_isLocal (membershipsFrom_isLocal value rest)

/-- Of the atoms, only a parenthesis reads what a limit can cut short. -/
theorem atom_cutShort
    (inner : ∀ after, input = .lparen :: after →
      CutShort limit (expression limit depth after).outcome (expression larger depth after).outcome) :
    CutShort limit (atom limit depth input).outcome (atom larger depth input).outcome := by
  rw [outcome_atom, outcome_atom]
  cases input with
  | nil => exact .same
  | cons lexeme after =>
      cases lexeme with
      | lparen =>
          refine (inner after rfl).bind (fun _ _ _ => .same) fun value rest => ?_
          exact (leavesAtMost_sign _ _ rest).value fun _ => Expr.paren value
      | _ => exact .same

/-- Every reader of expressions is cut short at most. -/
theorem readers_cutShort (order : limit ≤ larger) : EveryReader
    (fun depth input => depth ≤ limit →
      CutShort limit (expression limit depth input).outcome (expression larger depth input).outcome)
    (fun depth level input => depth ≤ limit →
      CutShort limit (infixed limit depth level input).outcome
        (infixed larger depth level input).outcome)
    (fun depth level value rest => depth ≤ limit →
      CutShort limit (linksFrom limit depth level value rest) (linksFrom larger depth level value rest))
    (fun depth level input => depth ≤ limit →
      CutShort limit (operand limit depth level input).outcome
        (operand larger depth level input).outcome)
    (fun depth input => depth ≤ limit →
      CutShort limit (unary limit depth input).outcome (unary larger depth input).outcome)
    (fun depth input => depth ≤ limit →
      CutShort limit (atom limit depth input).outcome (atom larger depth input).outcome) := by
  apply everyReader limit
  case expression =>
    intro depth input condition branch shallow
    exact expression_cutShort order shallow (fun room => condition room room) fun room after shorter =>
      branch room after shorter room
  case infixed =>
    intro depth level input first links shallow
    exact infixed_cutShort (first shallow) fun value rest shorter => links value rest shorter shallow
  case joined =>
    intro depth op value after second links shallow
    exact joined_cutShort (second shallow) fun right rest shorter => links right rest shorter shallow
  case unjoined =>
    intro depth level value rest other _
    rw [linksFrom_of_other other, linksFrom_of_other other]
    exact .same
  case operand =>
    intro depth level input tighter tightest shallow
    exact operand_cutShort (fun next step => tighter next step shallow) fun step => tightest step shallow
  case unary =>
    intro depth input signed unsigned shallow
    refine unary_cutShort order shallow (fun op after begins room => ?_) fun begins => ?_
    · exact signed op after begins room room
    · exact unsigned begins shallow
  case atom =>
    intro depth input inner shallow
    exact atom_cutShort fun after parts => inner after parts shallow

end Readers

theorem statement_cutShort (order : limit ≤ larger) (input : List Lexeme) :
    CutShort limit (Read.statement limit input).outcome (Read.statement larger input).outcome := by
  have value (input : List Lexeme) :=
    (readers_cutShort order).expression 0 input (Nat.zero_le limit)
  have ends (rest : List Lexeme) : LeavesAtMost rest.length (terminator rest).outcome :=
    .of_isLocal (terminator_isLocal rest)
  rw [outcome_statement, outcome_statement]
  split
  · refine CutShort.same.bind (fun name rest _ => ?_) fun name rest => ?_
    · refine CutShort.same.bind (fun _ rest _ => ?_) fun _ rest => ?_
      · refine (value rest).bind (fun _ _ _ => .same) fun e rest => ?_
        exact (ends rest).value fun _ => Statement.assignment name e
      · refine (leavesAtMost_expression larger 0 rest).bind fun e rest => ?_
        exact (ends rest).value fun _ => Statement.assignment name e
    · refine (leavesAtMost_sign _ _ rest).bind fun _ rest => ?_
      refine (leavesAtMost_expression larger 0 rest).bind fun e rest => ?_
      exact (ends rest).value fun _ => Statement.assignment name e
  · refine (value _).bind (fun _ _ _ => .same) fun e rest => ?_
    exact (ends rest).value fun _ => Statement.expression e

/-- A halt lies within the input. -/
theorem length_of_program_halts {halt : Halt} (halts : Read.program limit input = .error halt) :
    halt.rest.length ≤ input.length := by
  obtain ⟨taken, parts, -⟩ := program_halts_alike halts
  rw [parts, List.length_append]
  exact Nat.le_add_left _ _

/-- Under a smaller limit a program is read as under a larger one, or it is given up for depth at a place that reading
under the larger limit reaches. -/
theorem program_cutShort (order : limit ≤ larger) (input : List Lexeme) :
    Read.program limit input = Read.program larger input ∨
    ∃ rest, Read.program limit input = .error ⟨.tooDeep (limit + 1) limit, rest⟩ ∧
      ∀ halt, Read.program larger input = .error halt → halt.rest.length ≤ rest.length := by
  induction length : input.length using Nat.strongRecOn generalizing input with
  | ind n ih =>
      by_cases empty : input = []
      · subst empty
        refine Or.inl ?_
        rw [Read.program, Read.program]
      · rw [program_eq empty, program_eq empty]
        have cut := statement_cutShort order input
        generalize first : (Read.statement limit input).outcome = read at cut
        generalize (Read.statement larger input).outcome = readLarger at cut
        cases cut with
        | same =>
            cases read with
            | error halt => exact Or.inl rfl
            | ok found =>
                obtain ⟨head, after⟩ := found
                have shorter := length_lt_of_outcome first
                simp only [bind, Except.bind]
                rcases ih after.length (by omega) after rfl with same | ⟨rest, cut, further⟩
                · rw [same]
                  exact Or.inl rfl
                · rw [cut]
                  refine Or.inr ⟨rest, rfl, fun halt halts => ?_⟩
                  rcases bind_eq_error_iff.mp halts with halts | ⟨others, -, halts⟩
                  · exact further halt halts
                  · cases halts
        | tooDeep further =>
            refine Or.inr ⟨_, rfl, fun halt halts => ?_⟩
            simp only [bind_eq_error_iff, Prod.exists] at halts
            rcases halts with halts | ⟨head, after, found, halts | ⟨others, -, halts⟩⟩
            · rwa [halts] at further
            · rw [found] at further
              exact Nat.le_trans (length_of_program_halts halts) further
            · cases halts

end Read

namespace Expr

/-- Operands with operators between them, joined from left to right. -/
def chain (first : Expr) (links : List (Connective × Expr)) : Expr :=
  links.foldl (fun left link => link.1.join left link.2) first

theorem hasPath_join_iff {op : Connective} {left right : Expr} {steps : Nat} :
    (op.join left right).HasPath steps ↔ left.HasPath steps ∨ right.HasPath steps := by
  constructor
  · intro path
    generalize joined : op.join left right = e at path
    cases path with
    | left below =>
        rename_i other _ _
        cases op <;> cases other <;> cases joined <;> exact Or.inl below
    | right below =>
        rename_i other _ _
        cases op <;> cases other <;> cases joined <;> exact Or.inr below
    | _ => cases op <;> cases joined
  · rintro (below | below)
    · exact .left below
    · exact .right below

/-- The paths of a chain are those of its operands, so that its length adds nothing. -/
theorem hasPath_chain_iff (first : Expr) (links : List (Connective × Expr)) (steps : Nat) :
    (chain first links).HasPath steps ↔
      first.HasPath steps ∨ ∃ link ∈ links, link.2.HasPath steps := by
  induction links generalizing first with
  | nil => simp only [chain, List.foldl_nil, List.not_mem_nil, false_and, exists_false, or_false]
  | cons link links ih =>
      have whole : chain first (link :: links) = chain (link.1.join first link.2) links := rfl
      rw [whole, ih, hasPath_join_iff, or_assoc]
      simp only [List.mem_cons, or_and_right, exists_or, exists_eq_left]

end Expr

namespace Program

open Scan

variable {limit larger : Nat}

theorem parse_cutShort (order : limit ≤ larger) (source : String) :
    parse limit source = parse larger source ∨
    ∃ index ≤ (ofSource source).tokens.length,
      parse limit source =
        .error ⟨.tooDeep (limit + 1) limit, (ofSource source).positionAt index⟩ ∧
      ∀ error, parse larger source = .error error →
        ∃ later ≤ (ofSource source).tokens.length, index ≤ later ∧
          error.position = (ofSource source).positionAt later := by
  rcases Read.program_cutShort order (ofSource source).lexemes with same | ⟨rest, cut, further⟩
  · refine Or.inl ?_
    rw [parse, parse, same]
  · refine Or.inr ?_
    obtain ⟨taken, parts, -⟩ := Read.program_halts_alike cut
    have count : (ofSource source).tokens.length = taken.length + rest.length := by
      rw [← length_lexemes, parts, List.length_append]
    rw [parts] at cut
    refine ⟨taken.length, by omega, parse_of_halt parts cut, fun error failed => ?_⟩
    obtain ⟨halt, halts, rfl⟩ := exists_halt_of_parse failed
    have reached := further halt halts
    refine ⟨haltIndex (ofSource source) halt, Nat.sub_le _ _, ?_, rfl⟩
    unfold haltIndex
    omega

/-- The limit on nesting is exact, and else it does not show. Under a smaller limit a text comes to the same as under a
larger one, or it is given up for depth, at a token no later than the one at which the larger limit sees it fail. A text
that is a program under the larger limit is the same program under the smaller one exactly if no path in a statement
nests too deep; and in a chain of operators the paths are those of the operands, however long it is. -/
theorem parse_limit_exact (order : limit ≤ larger) (source : String) :
    (parse limit source = parse larger source ∨
      ∃ index ≤ (ofSource source).tokens.length,
        parse limit source =
          .error ⟨.tooDeep (limit + 1) limit, (ofSource source).positionAt index⟩ ∧
        ∀ error, parse larger source = .error error →
          ∃ later ≤ (ofSource source).tokens.length, index ≤ later ∧
            error.position = (ofSource source).positionAt later) ∧
    (∀ program, parse larger source = .ok program → ∀ found,
      parse limit source = .ok found ↔ found = program ∧
        ∀ statement ∈ program, ∀ steps, statement.expr.HasPath steps → 1 + steps ≤ limit) ∧
    ∀ first links steps, (Expr.chain first links).HasPath steps ↔
      first.HasPath steps ∨ ∃ link ∈ links, link.2.HasPath steps := by
  refine ⟨parse_cutShort order source, fun program parsed found => ?_, Expr.hasPath_chain_iff⟩
  have nests (statement : Statement) :
      (∀ steps, statement.expr.HasPath steps → 1 + steps ≤ limit) ↔ statement.nesting ≤ limit := by
    constructor
    · intro fits
      have deepest := fits _ statement.expr.hasPath_nesting
      rwa [Nat.add_comm] at deepest
    · intro fits steps path
      have below := path.le_nesting
      rw [Statement.nesting] at fits
      omega
  simp only [nests]
  obtain ⟨spells, -⟩ := (parse_eq_ok_iff_spells larger source program).mp parsed
  constructor
  · intro parsedHere
    rcases parse_cutShort order source with same | ⟨index, -, cut, -⟩
    · rw [same, parsed] at parsedHere
      cases parsedHere
      rw [parsed] at same
      exact ⟨rfl, ((parse_eq_ok_iff_spells limit source program).mp same).2⟩
    · rw [cut] at parsedHere
      cases parsedHere
  · rintro ⟨rfl, fits⟩
    exact (parse_eq_ok_iff_spells limit source found).mpr ⟨spells, fits⟩

/-- Parentheses and a sign take two levels below that of the statement; a sum takes none. -/
theorem parse_limit_exact_negation :
    1 ≤ 3 ∧
    parse 3 "1 + (-b)" = .ok [.expression (.binary .add (.number 1) (.paren (.unary .neg (.name "b"))))] ∧
    parse 1 "1 + (-b)" = .error ⟨.tooDeep 2 1, ⟨1, 6, 5⟩⟩ ∧
    ¬∀ statement ∈ [Statement.expression (.binary .add (.number 1) (.paren (.unary .neg (.name "b"))))],
      ∀ steps, statement.expr.HasPath steps → 1 + steps ≤ 1 := by
  have parsed : parse 3 "1 + (-b)" =
      .ok [.expression (.binary .add (.number 1) (.paren (.unary .neg (.name "b"))))] := by cbv
  have cut : parse 1 "1 + (-b)" = .error ⟨.tooDeep 2 1, ⟨1, 6, 5⟩⟩ := by cbv
  have order : 1 ≤ 3 := by decide
  refine ⟨order, parsed, cut, fun fits => ?_⟩
  have parsedHere := ((parse_limit_exact order "1 + (-b)").2.1 _ parsed _).mpr ⟨rfl, fits⟩
  rw [cut] at parsedHere
  cases parsedHere

end Program

end Abacus
