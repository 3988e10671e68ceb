import Abacus.Proofs.LexemeText
import Abacus.Proofs.ProgramGrammar
import Abacus.Proofs.ReadingCompletion

set_option autoImplicit false

namespace Abacus

namespace Read

variable {limit : Nat} {input rest : List Lexeme}

def StuckStatement (limit : Nat) (input rest : List Lexeme) : Prop :=
  ∃ taken added lexemes statement, input = taken ++ rest ∧ (∀ lexeme ∈ added, lexeme.IsScanned) ∧
    taken ++ added = lexemes ++ [.semicolon] ∧ SpellsStatement lexemes statement ∧
      statement.nesting ≤ limit

theorem semicolon_isScanned : Lexeme.semicolon.IsScanned := ⟨';', [], by decide, by decide⟩

/-- The expression of a statement was begun, after the head of the statement. -/
theorem Stuck.statement (head : List Lexeme) (make : Expr → Statement)
    (stuck : Stuck limit 1 .expression input rest) (same : ∀ e, (make e).expr = e)
    (spells : ∀ {lexemes e}, Spells .expression lexemes e → SpellsStatement (head ++ lexemes) (make e)) :
    StuckStatement limit (head ++ input) rest := by
  obtain ⟨taken, added, e, rfl, scanned, lexemes, whole, spellsBody, fits⟩ := stuck
  rw [List.append_nil] at whole
  refine ⟨head ++ taken, added ++ [.semicolon], head ++ lexemes, make e, ?_, ?_, ?_,
    spells spellsBody, ?_⟩
  · rw [List.append_assoc]
  · exact List.forall_mem_append.mpr ⟨scanned, List.forall_mem_singleton.mpr semicolon_isScanned⟩
  · simp only [← whole, List.append_assoc]
  · rw [Statement.nesting, same]
    omega

/-- The head of an assignment was begun: its name or the sign after it is missing. -/
theorem StuckStatement.head {text : String} (positive : 1 ≤ limit) (taken added : List Lexeme)
    (head : taken ++ added = [.var, .name text, .assign])
    (scanned : ∀ lexeme ∈ added, lexeme.IsScanned) : StuckStatement limit (taken ++ rest) rest := by
  refine ⟨taken, added ++ [zero, .semicolon], [.var, .name text, .assign, zero],
    .assignment text (.number 0), rfl, ?_, ?_, .assignment (spells_zero .expression), positive⟩
  · simp only [List.forall_mem_append, List.forall_mem_cons, zero_isScanned, semicolon_isScanned,
      List.not_mem_nil, false_implies, implies_true, and_self, and_true]
    exact scanned
  · rw [← List.append_assoc, head]
    rfl

theorem variableName_halts {halt : Halt} (halts : (variableName input).outcome = .error halt) :
    halt.rest = input := by
  rw [outcome_variableName] at halts
  split at halts
  · cases halts
  · cases halts
    rfl

theorem terminator_halts {halt : Halt} (halts : (terminator input).outcome = .error halt) :
    halt.rest = input := by
  rw [outcome_terminator] at halts
  split at halts
  · cases halts
  · cases halts
    rfl

theorem statement_halts {halt : Halt} (positive : 1 ≤ limit) (normal : HasNormalNumbers input)
    (shallow : halt.problem.IsShallow) (halts : (Read.statement limit input).outcome = .error halt) :
    StuckStatement limit input halt.rest := by
  have body {input : List Lexeme} (normal : HasNormalNumbers input)
      (halts : (expression limit 0 input).outcome = .error halt ∨
        ∃ e after, (expression limit 0 input).outcome = .ok (e, after) ∧
          (terminator after).outcome = .error halt) : Stuck limit 1 .expression input halt.rest := by
    rcases halts with halts | ⟨e, after, found, halts⟩
    · exact (readers_halt limit).expression 0 input normal halt shallow halts
    · rw [terminator_halts halts]
      exact .of_took ((readers_spell limit).expression 0 input normal e after found)
  have named : (Lexeme.name "x").IsScanned := ⟨'x', [], by decide, by decide⟩
  have assigned : Lexeme.assign.IsScanned := ⟨'=', [], by decide, by decide⟩
  rw [outcome_statement] at halts
  split at halts
  · simp only [bind_eq_error_iff, Prod.exists] at halts
    rcases halts with halts | ⟨text, afterName, foundName, halts⟩
    · rw [variableName_halts halts]
      refine .head positive [.var] [.name "x", .assign] rfl ?_
      exact List.forall_mem_cons.mpr ⟨named, List.forall_mem_singleton.mpr assigned⟩
    obtain rfl := variableName_eq_ok foundName
    rcases halts with halts | ⟨_, afterSign, foundSign, halts⟩
    · rw [sign_halts halts]
      exact .head positive [.var, .name text] [.assign] rfl (List.forall_mem_singleton.mpr assigned)
    obtain rfl := sign_eq_ok foundSign
    refine (body normal.tail.tail.tail ?_).statement [.var, .name text, .assign] (.assignment text)
      (fun _ => rfl) .assignment
    rcases halts with halts | ⟨e, after, found, halts | ⟨_, _, _, halts⟩⟩
    · exact Or.inl halts
    · exact Or.inr ⟨e, after, found, halts⟩
    · cases halts
  · simp only [bind_eq_error_iff, Prod.exists] at halts
    refine (body normal ?_).statement [] .expression (fun _ => rfl) .expression
    rcases halts with halts | ⟨e, after, found, halts | ⟨_, _, _, halts⟩⟩
    · exact Or.inl halts
    · exact Or.inr ⟨e, after, found, halts⟩
    · cases halts

theorem program_halts {halt : Halt} (positive : 1 ≤ limit) (normal : HasNormalNumbers input)
    (shallow : halt.problem.IsShallow) (halts : Read.program limit input = .error halt) :
    ∃ taken added program, input = taken ++ halt.rest ∧ (∀ lexeme ∈ added, lexeme.IsScanned) ∧
      SpellsProgram (taken ++ added) program ∧ ∀ statement ∈ program, statement.nesting ≤ limit := by
  induction length : input.length using Nat.strongRecOn generalizing input with
  | ind n ih =>
      have filled := ne_nil_of_halts halts
      rw [program_eq filled] at halts
      simp only [bind_eq_error_iff, Prod.exists] at halts
      rcases halts with halts | ⟨statement, after, found, halts⟩
      · obtain ⟨taken, added, lexemes, statement, parts, scanned, whole, spells, fits⟩ :=
          statement_halts positive normal shallow halts
        refine ⟨taken, added, [statement], parts, scanned, ?_, List.forall_mem_singleton.mpr fits⟩
        rw [whole]
        exact .cons spells .nil
      · obtain ⟨first, rfl, spells, fits⟩ := statement_spells normal found
        rcases halts with halts | ⟨others, _, halts⟩
        · have shorter : after.length < n := by
            simp only [List.length_append, List.length_cons] at length
            omega
          obtain ⟨taken, added, program, rfl, scanned, spellsOthers, fitOthers⟩ :=
            ih after.length shorter normal.right.tail halts rfl
          refine ⟨first ++ .semicolon :: taken, added, statement :: program, ?_, scanned, ?_,
            List.forall_mem_cons.mpr ⟨fits, fitOthers⟩⟩
          · rw [List.append_assoc, List.cons_append]
          · rw [List.append_assoc, List.cons_append]
            exact .cons spells spellsOthers
        · cases halts

end Read

/-- A list that agrees with another one up to an index goes on like it there. -/
theorem exists_append_of_agree {α : Type} {first rest second : List α}
    (agree : ∀ i ≤ first.length, second[i]? = (first ++ rest)[i]?) :
    ∃ other, second = first ++ other ∧ other.head? = rest.head? := by
  have start : second.take first.length = first := by
    refine List.ext_getElem? fun i => ?_
    rw [List.getElem?_take]
    by_cases inside : i < first.length
    · rw [if_pos inside, agree i (Nat.le_of_lt inside), List.getElem?_append_left inside]
    · rw [if_neg inside, List.getElem?_eq_none (Nat.le_of_not_lt inside)]
  refine ⟨second.drop first.length, ?_, ?_⟩
  · conv => lhs; rw [← List.take_append_drop first.length second, start]
  · rw [List.head?_drop, agree _ (Nat.le_refl _), List.getElem?_append_right (Nat.le_refl _),
      Nat.sub_self, List.head?_eq_getElem?]

/-- The text of lexemes with a space after each of them. -/
def Lexeme.line (lexemes : List Lexeme) : String :=
  String.ofList (Scan.written (lexemes.map fun lexeme => (lexeme, [' '])))

namespace Scan

/-- The lexemes of a program are those that a scan finds in their text. -/
theorem lexemes_line {lexemes : List Lexeme} {program : Program} (spells : SpellsProgram lexemes program)
    (scanned : ∀ lexeme ∈ lexemes, lexeme.IsScanned) :
    (ofSource (Lexeme.line lexemes)).lexemes = lexemes := by
  have cutLine : cut 0 (Lexeme.line lexemes).toList = lexemes := by
    rw [Lexeme.line, String.toList_ofList, cut_written, List.map_map]
    · exact List.map_id' lexemes
    · exact List.forall_mem_map.mpr scanned
    · refine List.forall_mem_map.mpr fun lexeme _ => ⟨List.cons_ne_nil _ _, ?_⟩
      exact List.forall_mem_singleton.mpr rfl
  have complete : terminated (Lexeme.line lexemes).toList = (Lexeme.line lexemes).toList := by
    rcases spells.areTerminated with rfl | ⟨body, rfl⟩
    · rfl
    · refine terminated_of_lastMark ?_
      rw [Lexeme.line, String.toList_ofList, written, List.map_append, List.flatMap_append,
        Text.lastMark?, List.filter_append]
      exact List.getLast?_concat
  rw [lexemes_ofSource, complete, cutLine]

end Scan

namespace Program

open Scan

/-- Where parsing fails for another reason than depth, the error shows at a token such that all texts with the same
lexemes up to it and with it fail alike at it, whatever follows, and some text that begins with the lexemes before it
is a program within the same limit. The end of the text counts as a token. -/
theorem parse_error_valid_prefix {limit : Nat} {source : String} {error : ParseError}
    (positive : 1 ≤ limit) (failed : parse limit source = .error error)
    (shallow : ∀ depth bound, error.problem ≠ .tooDeep depth bound) :
    ∃ index ≤ (ofSource source).tokens.length,
      error.position = (ofSource source).positionAt index ∧
      (∀ other : String,
        (∀ i ≤ index, (ofSource other).lexemes[i]? = (ofSource source).lexemes[i]?) →
          parse limit other = .error ⟨error.problem, (ofSource other).positionAt index⟩) ∧
      ∃ (completed : String) (program : Program),
        (ofSource source).lexemes.take index <+: (ofSource completed).lexemes ∧
          parse limit completed = .ok program := by
  obtain ⟨halt, halts, rfl⟩ := exists_halt_of_parse failed
  have normal := hasNormalNumbers_ofSource source
  obtain ⟨taken, parts, alike⟩ := Read.program_halts_alike halts
  have within : taken.length ≤ (ofSource source).tokens.length := by
    rw [← length_lexemes, parts, List.length_append]
    exact Nat.le_add_right _ _
  have here := alike halt.rest rfl
  refine ⟨taken.length, within, ?_, fun other agree => ?_, ?_⟩
  · have found := parse_of_halt parts here
    rw [failed, Except.error.injEq] at found
    exact congrArg ParseError.position found
  · rw [parts] at agree
    obtain ⟨rest, lexemes, sameHead⟩ := exists_append_of_agree agree
    exact parse_of_halt lexemes (alike rest sameHead)
  · obtain ⟨begun, added, program, partsBegun, scanned, spells, fits⟩ :=
      Read.program_halts positive normal shallow halts
    obtain rfl : begun = taken := List.append_cancel_right (partsBegun.symm.trans parts)
    have scannedTaken : ∀ lexeme ∈ begun, lexeme.IsScanned := fun lexeme member =>
      lexemes_areScanned source lexeme (parts ▸ List.mem_append_left halt.rest member)
    have completed := lexemes_line spells (List.forall_mem_append.mpr ⟨scannedTaken, scanned⟩)
    refine ⟨Lexeme.line (begun ++ added), program, ?_, ?_⟩
    · rw [completed, parts, List.take_left]
      exact List.prefix_append begun added
    · rw [parse_eq_ok_iff_read, completed]
      exact Read.program_of_spells spells fits

/-- An operand is missing at the terminator: no text that goes on from there is a program, but one that has an operand
and a parenthesis there is. -/
theorem parse_error_valid_prefix_operand :
    parse 2 "var x = (1 + ;" = .error ⟨.unexpected .expression (some .semicolon), ⟨1, 14, 13⟩⟩ ∧
    ∃ index ≤ (ofSource "var x = (1 + ;").tokens.length,
      ⟨1, 14, 13⟩ = (ofSource "var x = (1 + ;").positionAt index ∧
      (∀ other : String,
        (∀ i ≤ index, (ofSource other).lexemes[i]? = (ofSource "var x = (1 + ;").lexemes[i]?) →
          parse 2 other = .error ⟨.unexpected .expression (some .semicolon),
            (ofSource other).positionAt index⟩) ∧
      ∃ (completed : String) (program : Program),
        (ofSource "var x = (1 + ;").lexemes.take index <+: (ofSource completed).lexemes ∧
          parse 2 completed = .ok program := by
  have failed : parse 2 "var x = (1 + ;" =
      .error ⟨.unexpected .expression (some .semicolon), ⟨1, 14, 13⟩⟩ := by cbv
  refine ⟨failed, parse_error_valid_prefix (by decide) failed fun depth bound deep => ?_⟩
  cases deep

end Program

end Abacus
