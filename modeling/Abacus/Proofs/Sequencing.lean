import Abacus.Proofs.DirectEvaluation
import Abacus.Proofs.ReadingLocality
import Abacus.Proofs.ScanConcat

set_option autoImplicit false

namespace Abacus

/-- The same error in a text that stands behind another one. -/
def ParseError.behind (text : List Char) (error : ParseError) : ParseError :=
  ⟨error.problem, error.position.behind text⟩

/-- The same error in a program with more statements before. -/
def EngineError.later (count : Nat) : EngineError → EngineError
  | parse diagnostic source => parse diagnostic source
  | evaluation statement error => evaluation (count + statement) error

/-- Behind the lexemes of a program the others are read as they are by themselves. -/
theorem Read.program_append {limit : Nat} {lexemes : List Lexeme} {program : Program}
    (spells : SpellsProgram lexemes program) (fits : ∀ statement ∈ program, statement.nesting ≤ limit)
    (rest : List Lexeme) :
    Read.program limit (lexemes ++ rest) = (Read.program limit rest).map (program ++ ·) := by
  induction spells with
  | nil =>
      rw [List.nil_append]
      cases Read.program limit rest <;> rfl
  | cons head others ih =>
      obtain ⟨fitsHead, fitsOthers⟩ := List.forall_mem_cons.mp fits
      rw [List.append_assoc, List.cons_append,
        program_eq (List.append_ne_nil_of_right_ne_nil _ (List.cons_ne_nil _ _)),
        statement_of_spells head fitsHead]
      simp only [bind, Except.bind, ih fitsOthers]
      cases Read.program limit rest <;> rfl

namespace Program

open Scan

variable {limit : Nat} {first : String} {program : Program}

theorem parse_terminatedText (limit : Nat) (source : String) :
    parse limit (terminatedText source) = parse limit source := by
  simp only [parse, ofSource_terminatedText]

/-- Behind the text of a program, another text is parsed as it is by itself, but for the place of an error. -/
theorem parse_append (parsed : parse limit first = .ok program) (second : String) :
    parse limit (terminatedText first ++ terminatedText second) =
      match parse limit second with
      | .ok others => .ok (program ++ others)
      | .error error => .error (error.behind (terminatedText first).toList) := by
  obtain ⟨spells, fits⟩ := (parse_eq_ok_iff_spells limit first program).mp parsed
  have scanned := ofSource_append spells.areTerminated second
  have lexemes : (ofSource (terminatedText first ++ terminatedText second)).lexemes =
      (ofSource first).lexemes ++ (ofSource second).lexemes := by
    rw [scanned, lexemes_append, lexemes_behind]
  cases parsedSecond : parse limit second with
  | ok others =>
      rw [parse_eq_ok_iff_read] at parsedSecond ⊢
      rw [lexemes, Read.program_append spells fits, parsedSecond]
      rfl
  | error error =>
      obtain ⟨halt, halts, -⟩ := exists_halt_of_parse parsedSecond
      obtain ⟨taken, parts, -⟩ := Read.program_halts_alike halts
      rw [parts] at lexemes halts
      have place := parse_of_halt parts halts
      rw [parsedSecond, Except.error.injEq] at place
      have haltsBehind := Read.program_append spells fits (taken ++ halt.rest)
      rw [halts, ← List.append_assoc] at haltsBehind
      rw [← List.append_assoc] at lexemes
      rw [parse_of_halt lexemes haltsBehind, place, scanned, List.length_append, positionAt_append,
        positionAt_behind]
      rfl

end Program

namespace Engine

variable {σ : Type} {engine : Engine σ}

/-- The index of the first statement is only for telling which one failed. -/
theorem runDirect_later (count index : Nat) (last : Int64) (program : Program) (world : World σ) :
    engine.runDirect (count + index) last program world =
      match engine.runDirect index last program world with
      | .ok value after => .ok value after
      | .error error after => .error (error.later count) after := by
  induction program generalizing index last world with
  | nil => rfl
  | cons statement rest ih =>
      cases came : engine.evaluator.executeDirect statement world with
      | error error after => simp only [runDirect_of_error came, EngineError.later]
      | ok outcome after =>
          rw [runDirect_of_ok came, runDirect_of_ok came]
          exact ih (index + 1) outcome.result after

theorem runDirect_append (index : Nat) (last : Int64) (first second : Program) (world : World σ) :
    engine.runDirect index last (first ++ second) world =
      match engine.runDirect index last first world with
      | .ok value after => engine.runDirect (first.length + index) value second after
      | .error error after => .error error after := by
  induction first generalizing index last world with
  | nil =>
      rw [List.nil_append, List.length_nil, Nat.zero_add]
      rfl
  | cons statement rest ih =>
      rw [List.cons_append]
      cases came : engine.evaluator.executeDirect statement world with
      | error error after => rw [runDirect_of_error came, runDirect_of_error came]
      | ok outcome after =>
          rw [runDirect_of_ok came, runDirect_of_ok came, ih, List.length_cons,
            Nat.add_right_comm rest.length 1 index]
          rfl

/-- Statements after those of a program run where it came to. The value is that of the program if there are none. -/
theorem run_append (first second : Program) (world : World σ) :
    engine.run (first ++ second) world =
      match engine.run first world with
      | .error error after => .error error after
      | .ok value after =>
        match engine.run second after with
        | .ok last final => .ok (if second = [] then value else last) final
        | .error error final => .error (error.later first.length) final := by
  rw [run_eq_runDirect, run_eq_runDirect, runDirect_append]
  cases engine.runDirect 0 0 first world with
  | error error after => rfl
  | ok value after =>
      dsimp only
      rw [run_eq_runDirect, runDirect_later]
      cases second with
      | nil => rfl
      | cons statement rest =>
          -- The value before a statement plays no part once it has run.
          have sameValue : engine.runDirect 0 value (statement :: rest) after =
              engine.runDirect 0 0 (statement :: rest) after := rfl
          rw [sameValue]
          cases engine.runDirect 0 0 (statement :: rest) after with
          | error error final => rfl
          | ok last final => simp only [reduceCtorEq, if_false]

open Scan in
/-- A text with the terminator that it lacks is the same program at the same places. Behind one that parses, another
text gives its statements after those of the first one, or its error, at its place behind the first text. A run of
both is a run of the first one and then, unless that fails, a run of the second one from where the first one came
to. -/
theorem concatenation_sequences (limit : Nat) (first second : String) :
    Program.parse limit (terminatedText first) = Program.parse limit first ∧
    ∀ program, Program.parse limit first = .ok program →
      Program.parse limit (terminatedText first ++ terminatedText second) =
        (match Program.parse limit second with
        | .ok others => .ok (program ++ others)
        | .error error => .error (error.behind (terminatedText first).toList)) ∧
      ∀ {σ : Type} (engine : Engine σ) (others : Program), engine.options.nestingLimit = limit →
        Program.parse limit second = .ok others → ∀ world : World σ,
          engine.eval (terminatedText first ++ terminatedText second) world =
            match engine.eval first world with
            | .error error after => .error error after
            | .ok value after =>
              match engine.eval second after with
              | .ok last final => .ok (if others = [] then value else last) final
              | .error error final => .error (error.later program.length) final := by
  refine ⟨Program.parse_terminatedText limit first, fun program parsed => ?_⟩
  have appended := Program.parse_append parsed second
  refine ⟨appended, ?_⟩
  rintro σ engine others rfl parsedSecond world
  rw [parsedSecond] at appended
  rw [eval_of_parse appended, eval_of_parse parsed, run_append]
  cases engine.run program world with
  | error error after => rfl
  | ok value after => rw [eval_of_parse parsedSecond]

open Scan in
/-- The second text fails in its first statement, which is the second one of both. -/
theorem concatenation_sequences_division :
    Program.parse 4 "var a = 2" = .ok [.assignment "a" (.number 2)] ∧
    Program.parse 4 "a / 0" = .ok [.expression (.binary .div (.name "a") (.number 0))] ∧
    Program.parse 4 (terminatedText "var a = 2" ++ terminatedText "a / 0") =
      .ok [.assignment "a" (.number 2), .expression (.binary .div (.name "a") (.number 0))] ∧
    ({ options := { nestingLimit := 4 } } : Engine Unit).eval
        (terminatedText "var a = 2" ++ terminatedText "a / 0") ⟨∅, (), []⟩ =
      .error (.evaluation 1 (.divisionByZero .div)) ⟨(∅ : Environment).insert "a" 2, (), []⟩ := by
  let engine : Engine Unit := { options := { nestingLimit := 4 } }
  have first : Program.parse 4 "var a = 2" = .ok [.assignment "a" (.number 2)] := by cbv
  have second : Program.parse 4 "a / 0" =
      .ok [.expression (.binary .div (.name "a") (.number 0))] := by cbv
  have ranFirst : engine.eval "var a = 2" ⟨∅, (), []⟩ =
      .ok 2 ⟨(∅ : Environment).insert "a" 2, (), []⟩ := by cbv
  have ranSecond : engine.eval "a / 0" ⟨(∅ : Environment).insert "a" 2, (), []⟩ =
      .error (.evaluation 0 (.divisionByZero .div)) ⟨(∅ : Environment).insert "a" 2, (), []⟩ := by cbv
  obtain ⟨parsed, ran⟩ := (concatenation_sequences 4 "var a = 2" "a / 0").2 _ first
  rw [second] at parsed
  have whole := ran engine _ rfl second ⟨∅, (), []⟩
  rw [ranFirst] at whole
  dsimp only at whole
  rw [ranSecond] at whole
  exact ⟨first, second, parsed, whole⟩

end Engine

end Abacus
