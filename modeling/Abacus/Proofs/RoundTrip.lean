import Abacus.Proofs.ProgramGrammar
import Abacus.Proofs.TextScan

set_option autoImplicit false

namespace Abacus

namespace Statement

open Scan

variable {limit : Nat} {statement : Statement}

def lexemes : Statement → List Lexeme
  | expression e => e.lexemes
  | assignment name e => .var :: .name name :: .assign :: e.lexemes

theorem IsCanonical.spells (canonical : statement.IsCanonical limit) :
    SpellsStatement statement.lexemes statement := by
  cases statement with
  | expression e => exact .expression (canonical.1.spells e.looseness_le)
  | assignment name e => exact .assignment (canonical.2.1.spells e.looseness_le)

theorem IsCanonical.nesting_le (canonical : statement.IsCanonical limit) :
    statement.nesting ≤ limit := by
  cases statement with
  | expression => exact canonical.2
  | assignment => exact canonical.2.2

theorem IsCanonical.cut_text (canonical : statement.IsCanonical limit) (rest : List Char) :
    cut 0 (statement.text.toList ++ rest) = statement.lexemes ++ .semicolon :: cut 0 rest := by
  have ended : ";".toList ++ rest = ';' :: rest := rfl
  have cutEnded : cut 0 (';' :: rest) = .semicolon :: cut 0 rest := cut_sign rfl rfl
  cases statement with
  | expression e =>
      simp only [text, String.toList_append, List.append_assoc]
      rw [ended, canonical.1.cut_text (apart_cons rfl), cutEnded]
      rfl
  | assignment name e =>
      have opened (after : List Char) :
          "var ".toList ++ after = 'v' :: 'a' :: 'r' :: ' ' :: after := rfl
      have cutOpened (after : List Char) :
          cut 0 ('v' :: 'a' :: 'r' :: ' ' :: after) = .var :: cut 0 after := rfl
      have bound (after : List Char) : " = ".toList ++ after = ' ' :: '=' :: ' ' :: after := rfl
      have cutBound (after : List Char) :
          cut 0 (' ' :: '=' :: ' ' :: after) = .assign :: cut 0 after := rfl
      simp only [text, String.toList_append, List.append_assoc]
      rw [opened, bound, ended, cutOpened, cut_name canonical.1 (apart_cons rfl), cutBound,
        canonical.2.1.cut_text (apart_cons rfl), cutEnded]
      rfl

theorem text_ends (statement : Statement) :
    ∃ body, statement.text.toList = body ++ [';'] := by
  cases statement <;> exact ⟨_, String.toList_append⟩

/-- What a statement is spelled by makes it canonical, if its lexemes are written as a scan writes them. -/
theorem isCanonical_of_spells {lexemes : List Lexeme} (spells : SpellsStatement lexemes statement)
    (written : ∀ lexeme ∈ lexemes, lexeme.IsWritten) (fits : statement.nesting ≤ limit) :
    statement.IsCanonical limit := by
  cases spells with
  | expression body => exact ⟨body.isCanonical written, fits⟩
  | assignment body =>
      simp only [List.forall_mem_cons] at written
      exact ⟨written.2.1, body.isCanonical written.2.2.2, fits⟩

end Statement

namespace Program

open Scan

variable {limit : Nat} {program : Program}

def lexemes (program : Program) : List Lexeme :=
  program.flatMap fun statement => statement.lexemes ++ [.semicolon]

theorem spells_lexemes (canonical : ∀ statement ∈ program, statement.IsCanonical limit) :
    SpellsProgram program.lexemes program := by
  induction program with
  | nil => exact .nil
  | cons statement program ih =>
      obtain ⟨head, others⟩ := List.forall_mem_cons.mp canonical
      rw [lexemes, List.flatMap_cons, List.append_assoc]
      exact .cons head.spells (ih others)

theorem cut_text (canonical : ∀ statement ∈ program, statement.IsCanonical limit) :
    cut 0 program.text.toList = program.lexemes := by
  induction program with
  | nil => rfl
  | cons statement program ih =>
      obtain ⟨head, others⟩ := List.forall_mem_cons.mp canonical
      have tail := ih others
      rw [lexemes, List.flatMap_cons, List.append_assoc]
      cases program with
      | nil =>
          rw [text, List.map_singleton, String.intercalate_singleton,
            ← List.append_nil statement.text.toList]
          exact head.cut_text []
      | cons next program =>
          have spaced (after : List Char) : cut 0 (" ".toList ++ after) = cut 0 after := rfl
          rw [text, List.map_cons, List.map_cons, String.intercalate_cons_cons,
            String.toList_append, String.toList_append, List.append_assoc, head.cut_text, spaced,
            ← List.map_cons]
          exact congrArg _ (congrArg _ tail)

theorem text_ends (filled : program ≠ []) : ∃ body, program.text.toList = body ++ [';'] := by
  induction program with
  | nil => exact absurd rfl filled
  | cons statement program ih =>
      cases program with
      | nil =>
          rw [text, List.map_singleton, String.intercalate_singleton]
          exact statement.text_ends
      | cons next program =>
          obtain ⟨body, ended⟩ := ih (List.cons_ne_nil _ _)
          rw [text, List.map_cons, List.map_cons, String.intercalate_cons_cons, ← List.map_cons,
            String.toList_append, ← text, ended, ← List.append_assoc]
          exact ⟨_, rfl⟩

/-- A scan adds no terminator to the text of a program. -/
theorem terminated_text (program : Program) : terminated program.text.toList = program.text.toList := by
  by_cases filled : program = []
  · subst filled
    rfl
  · obtain ⟨body, ended⟩ := text_ends filled
    have last : Text.lastMark? program.text.toList = some ';' := by
      rw [ended, Text.lastMark?, List.filter_append]
      exact List.getLast?_concat
    exact terminated_of_lastMark last

theorem parse_text_of_isCanonical (canonical : ∀ statement ∈ program, statement.IsCanonical limit) :
    parse limit program.text = .ok program := by
  have lexed : (ofSource program.text).lexemes = program.lexemes := by
    rw [lexemes_ofSource, terminated_text, cut_text canonical]
  have normal := hasNormalNumbers_ofSource program.text
  rw [parse_eq_ok_iff_read, Read.program_eq_ok_iff normal, lexed]
  exact ⟨spells_lexemes canonical, fun statement member => (canonical statement member).nesting_le⟩

theorem isCanonical_of_spells {lexemes : List Lexeme} (spells : SpellsProgram lexemes program)
    (written : ∀ lexeme ∈ lexemes, lexeme.IsWritten)
    (fits : ∀ statement ∈ program, statement.nesting ≤ limit) :
    ∀ statement ∈ program, statement.IsCanonical limit := by
  induction spells with
  | nil => exact fun _ member => absurd member List.not_mem_nil
  | cons head rest ih =>
      simp only [List.forall_mem_append, List.forall_mem_cons] at written fits ⊢
      exact ⟨Statement.isCanonical_of_spells head written.1 fits.1, ih written.2.2 fits.2⟩

theorem isCanonical_of_parse {source : String} (parsed : parse limit source = .ok program) :
    ∀ statement ∈ program, statement.IsCanonical limit := by
  rw [parse_eq_ok_iff_read, Read.program_eq_ok_iff (hasNormalNumbers_ofSource source)] at parsed
  exact isCanonical_of_spells parsed.1 (lexemes_areWritten source) parsed.2

/-- The text of a program parses back to it exactly when its statements are canonical. All programs that parse are
canonical, so that each is what its own text parses to. -/
theorem parse_text_eq_ok_iff_isCanonical (limit : Nat) :
    (∀ program : Program, parse limit program.text = .ok program ↔
      ∀ statement ∈ program, statement.IsCanonical limit) ∧
    ∀ (source : String) (program : Program), parse limit source = .ok program →
      (∀ statement ∈ program, statement.IsCanonical limit) ∧
        parse limit program.text = .ok program := by
  refine ⟨fun program => ⟨isCanonical_of_parse, parse_text_of_isCanonical⟩, ?_⟩
  intro source program parsed
  have canonical := isCanonical_of_parse parsed
  exact ⟨canonical, parse_text_of_isCanonical canonical⟩

theorem parse_text_ternary :
    parse 4 "var x = y < 1 ? --2 : (z);" = .ok [.assignment "x" (.ternary
      (.binary .lt (.name "y") (.number 1)) (.unary .neg (.unary .neg (.number 2)))
      (.paren (.name "z")))] ∧
    ∀ statement ∈ [Statement.assignment "x" (.ternary
      (.binary .lt (.name "y") (.number 1)) (.unary .neg (.unary .neg (.number 2)))
      (.paren (.name "z")))], statement.IsCanonical 4 := by
  have printed := parse_text_eq_ok_iff_isCanonical 4
  have written : text [.assignment "x" (.ternary (.binary .lt (.name "y") (.number 1))
      (.unary .neg (.unary .neg (.number 2))) (.paren (.name "z")))] =
        "var x = y < 1 ? --2 : (z);" := by decide
  have parsed := (printed.1 [.assignment "x" (.ternary (.binary .lt (.name "y") (.number 1))
    (.unary .neg (.unary .neg (.number 2))) (.paren (.name "z")))]).mpr (by decide)
  rw [written] at parsed
  exact ⟨parsed, (printed.2 _ _ parsed).1⟩

end Program

end Abacus
