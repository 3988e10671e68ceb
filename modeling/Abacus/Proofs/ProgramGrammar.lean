import Abacus.Proofs.ReadingCompleteness
import Abacus.Proofs.ReadingSoundness
import Abacus.Proofs.ScanLexemes
import Mathlib

set_option autoImplicit false

namespace Abacus

/-- The last lexeme, if there is one, ends a statement. -/
def Lexeme.AreTerminated (lexemes : List Lexeme) : Prop :=
  lexemes = [] ∨ ∃ body, lexemes = body ++ [.semicolon]

theorem SpellsProgram.areTerminated {lexemes : List Lexeme} {program : Program}
    (spells : SpellsProgram lexemes program) : Lexeme.AreTerminated lexemes := by
  induction spells with
  | nil => exact Or.inl rfl
  | @cons first second _ _ _ _ ih =>
      refine Or.inr ?_
      rcases ih with rfl | ⟨body, rfl⟩
      · exact ⟨first, rfl⟩
      · exact ⟨first ++ .semicolon :: body, by rw [List.append_assoc, List.cons_append]⟩

namespace Read

variable {limit : Nat} {input rest : List Lexeme}

theorem terminator_eq_ok {mark : Unit} (success : (terminator input).outcome = .ok (mark, rest)) :
    input = .semicolon :: rest := by
  rw [outcome_terminator] at success
  split at success
  · cases success
    rfl
  · cases success

theorem variableName_eq_ok {text : String}
    (success : (variableName input).outcome = .ok (text, rest)) : input = .name text :: rest := by
  rw [outcome_variableName] at success
  split at success
  · cases success
    rfl
  · cases success

theorem statement_spells {statement : Statement} (normal : HasNormalNumbers input)
    (success : (Read.statement limit input).outcome = .ok (statement, rest)) :
    ∃ taken, input = taken ++ .semicolon :: rest ∧ SpellsStatement taken statement ∧
      statement.nesting ≤ limit := by
  rw [outcome_statement] at success
  split at success
  · simp only [bind_eq_ok_iff, Prod.exists] at success
    obtain ⟨text, afterName, foundName, _, afterSign, foundSign, e, afterValue, foundValue, _, _,
      foundStop, success⟩ := success
    cases success
    obtain rfl := variableName_eq_ok foundName
    obtain rfl := sign_eq_ok foundSign
    obtain rfl := terminator_eq_ok foundStop
    obtain ⟨taken, rfl, spells, fits⟩ :=
      (readers_spell limit).expression 0 _ normal.tail.tail.tail e _ foundValue
    refine ⟨_, rfl, .assignment spells, ?_⟩
    simp only [Statement.nesting, Statement.expr]
    omega
  · simp only [bind_eq_ok_iff, Prod.exists] at success
    obtain ⟨e, afterValue, foundValue, _, _, foundStop, success⟩ := success
    cases success
    obtain rfl := terminator_eq_ok foundStop
    obtain ⟨taken, rfl, spells, fits⟩ := (readers_spell limit).expression 0 _ normal e _ foundValue
    refine ⟨taken, rfl, .expression spells, ?_⟩
    simp only [Statement.nesting, Statement.expr]
    omega

theorem program_spells {program : Program} (normal : HasNormalNumbers input)
    (success : Read.program limit input = .ok program) :
    SpellsProgram input program ∧ ∀ statement ∈ program, statement.nesting ≤ limit := by
  induction length : input.length using Nat.strongRecOn generalizing input program with
  | ind n ih =>
      by_cases empty : input = []
      · subst empty
        rw [Read.program] at success
        cases success
        exact ⟨.nil, fun statement member => absurd member List.not_mem_nil⟩
      · rw [program_eq empty] at success
        simp only [bind_eq_ok_iff, Prod.exists] at success
        obtain ⟨head, after, foundHead, others, foundOthers, success⟩ := success
        cases success
        obtain ⟨taken, rfl, spells, fits⟩ := statement_spells normal foundHead
        have shorter : after.length < n := by
          simp only [List.length_append, List.length_cons] at length
          omega
        obtain ⟨spellsOthers, fitOthers⟩ := ih after.length shorter normal.right.tail foundOthers rfl
        exact ⟨.cons spells spellsOthers, List.forall_mem_cons.mpr ⟨fits, fitOthers⟩⟩

/-- A phrase has a first lexeme, and it is not the mark of an assignment. -/
theorem head_of_spells {phrase : Phrase} {lexemes : List Lexeme} {e : Expr}
    (spells : Spells phrase lexemes e) : ∃ first more, lexemes = first :: more ∧ first ≠ .var := by
  induction spells with
  | plain _ ih => exact ih
  | tighter _ ih => exact ih
  | primary _ ih => exact ih
  | atom _ ih => exact ih
  | ternary _ _ _ ih _ _ =>
      obtain ⟨first, more, rfl, other⟩ := ih
      exact ⟨first, _, rfl, other⟩
  | joined _ _ _ ih _ =>
      obtain ⟨first, more, rfl, other⟩ := ih
      exact ⟨first, _, rfl, other⟩
  | compared _ _ _ ih _ =>
      obtain ⟨first, more, rfl, other⟩ := ih
      exact ⟨first, _, rfl, other⟩
  | member _ _ ih =>
      obtain ⟨first, more, rfl, other⟩ := ih
      exact ⟨first, _, rfl, other⟩
  | negated => exact ⟨_, _, rfl, nofun⟩
  | denied => exact ⟨_, _, rfl, nofun⟩
  | number isNumber =>
      obtain ⟨denotes, fits⟩ := isNumber
      exact ⟨_, _, rfl, nofun⟩
  | name => exact ⟨_, _, rfl, nofun⟩
  | paren => exact ⟨_, _, rfl, nofun⟩

theorem statement_of_spells {lexemes : List Lexeme} {statement : Statement}
    (spells : SpellsStatement lexemes statement) (fits : statement.nesting ≤ limit)
    (rest : List Lexeme) :
    (Read.statement limit (lexemes ++ .semicolon :: rest)).outcome = .ok (statement, rest) := by
  have ends : Phrase.expression.EndsBefore (.semicolon :: rest) := Phrase.endsBefore_cons.mpr rfl
  cases spells with
  | expression body =>
      rename_i e
      simp only [Statement.nesting, Statement.expr] at fits
      have readBody := completeness body 0 _ (show 0 + 1 + e.nesting ≤ limit by omega) ends
      obtain ⟨first, more, rfl, other⟩ := head_of_spells body
      rw [outcome_statement]
      split
      · rename_i same
        cases same
        exact absurd rfl other
      · simp only [readBody, bind, Except.bind]
        rw [outcome_terminator]
        rfl
  | assignment body =>
      rename_i text lexemes e
      simp only [Statement.nesting, Statement.expr] at fits
      have readBody := completeness body 0 _ (show 0 + 1 + e.nesting ≤ limit by omega) ends
      simp only [List.cons_append]
      rw [outcome_statement]
      simp only [outcome_variableName, outcome_sign_self, readBody, bind, Except.bind,
        outcome_terminator]
      rfl

theorem program_of_spells {program : Program} (spells : SpellsProgram input program)
    (fits : ∀ statement ∈ program, statement.nesting ≤ limit) :
    Read.program limit input = .ok program := by
  induction spells with
  | nil => rw [Read.program]
  | cons head rest ih =>
      obtain ⟨fitsHead, fitsOthers⟩ := List.forall_mem_cons.mp fits
      rw [program_eq (List.append_ne_nil_of_right_ne_nil _ (List.cons_ne_nil _ _)),
        statement_of_spells head fitsHead]
      simp only [bind, Except.bind, ih fitsOthers]
      rfl

/-- Reading accepts what the grammar derives within the limit, and nothing else. -/
theorem program_eq_ok_iff {program : Program} (normal : HasNormalNumbers input) :
    Read.program limit input = .ok program ↔
      SpellsProgram input program ∧ ∀ statement ∈ program, statement.nesting ≤ limit :=
  ⟨program_spells normal, fun ⟨spells, fits⟩ => program_of_spells spells fits⟩

end Read

namespace Program

variable {limit : Nat} {source : String} {program : Program}

theorem parse_eq_ok_iff_read :
    parse limit source = .ok program ↔
      Read.program limit (Scan.ofSource source).lexemes = .ok program := by
  simp only [parse]
  cases Read.program limit (Scan.ofSource source).lexemes with
  | error halt => exact ⟨nofun, nofun⟩
  | ok found =>
      change Except.ok found = Except.ok program ↔ _
      simp only [Except.ok.injEq]

/-- An error comes of a halt, and its place is where the lexemes that were left begin. -/
theorem exists_halt_of_parse {error : ParseError} (failed : parse limit source = .error error) :
    ∃ halt, Read.program limit (Scan.ofSource source).lexemes = .error halt ∧
      error = (Scan.ofSource source).error halt := by
  simp only [parse] at failed
  cases halts : Read.program limit (Scan.ofSource source).lexemes with
  | ok program =>
      rw [halts] at failed
      cases failed
  | error halt =>
      rw [halts] at failed
      cases failed
      exact ⟨halt, rfl, rfl⟩

theorem parse_of_halt {problem : Problem} {taken rest : List Lexeme}
    (lexemes : (Scan.ofSource source).lexemes = taken ++ rest)
    (halts : Read.program limit (taken ++ rest) = .error ⟨problem, rest⟩) :
    parse limit source = .error ⟨problem, (Scan.ofSource source).positionAt taken.length⟩ := by
  have index : (Scan.ofSource source).haltIndex ⟨problem, rest⟩ = taken.length := by
    rw [Scan.haltIndex, ← Scan.length_lexemes, lexemes, List.length_append, Nat.add_sub_cancel]
  simp only [parse, lexemes, halts, Except.mapError, Scan.error, index]

theorem hasNormalNumbers_ofSource (source : String) :
    HasNormalNumbers (Scan.ofSource source).lexemes :=
  fun _ member => Scan.lexemes_areWritten source _ member

/-- Parsing a source text gives a program exactly when the lexemes of the text spell the program by the grammar
and every statement nests within the limit. -/
theorem parse_eq_ok_iff_spells (limit : Nat) (source : String) (program : Program) :
    parse limit source = .ok program ↔
      SpellsProgram (Scan.ofSource source).lexemes program ∧
        ∀ statement ∈ program, statement.nesting ≤ limit :=
  parse_eq_ok_iff_read.trans (Read.program_eq_ok_iff (hasNormalNumbers_ofSource source))

end Program

end Abacus
