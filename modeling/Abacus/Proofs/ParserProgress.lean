import Abacus.Proofs.ParserRoutines

set_option autoImplicit false

namespace Abacus

namespace Parser

variable {α : Type} {parser : Parser} {input : List Lexeme} {lexeme : Lexeme}

def readProgram (limit : Nat) (input : List Lexeme) : Except Halt (Program × List Lexeme) :=
  (Read.program limit input).map fun program => (program, [])

theorem readProgram_eq {limit : Nat} (filled : input ≠ []) :
    readProgram limit input = (do
      let (head, rest) ← (Read.statement limit input).outcome
      let (others, left) ← readProgram limit rest
      return (head :: others, left)) := by
  rw [readProgram, Read.program_eq filled]
  cases (Read.statement limit input).outcome with
  | error halt => rfl
  | ok found =>
      obtain ⟨head, rest⟩ := found
      simp only [bind, Except.bind, readProgram]
      cases Read.program limit rest <;> rfl

/-- Statements are taken one after the other, so there are as many terminators as statements. -/
theorem program_takes (limit : Nat) (input : List Lexeme) :
    ∃ taken, Takes (program limit) taken input (readProgram limit input) ∧
      ∀ program left, readProgram limit input = .ok (program, left) → taken.count .semicolon = program.length := by
  induction length : input.length using Nat.strongRecOn generalizing input with
  | ind n ih =>
      rw [program_eq]
      by_cases empty : input = []
      · subst empty
        rw [readProgram, Read.program]
        refine ⟨[], .seen (.nothing rfl fun _ => rfl), fun program left found => ?_⟩
        cases found
        rfl
      · obtain ⟨taken, takes, took⟩ := Mirrors.statement limit input
        have goesOn : input.head?.isSome = true := List.isSome_head?.mpr empty
        rw [readProgram_eq empty]
        cases outcome : (Read.statement limit input).outcome with
        | error halt =>
            rw [outcome] at takes
            refine ⟨taken, .seen ?_, fun program left found => by cases found⟩
            rw [if_pos goesOn]
            exact takes.bind_error
        | ok found =>
            obtain ⟨head, rest⟩ := found
            rw [outcome] at takes took
            have shorter := Read.length_lt_of_outcome outcome
            obtain ⟨others, takesOthers, counts⟩ := ih rest.length (by omega) rest rfl
            refine ⟨taken ++ others, .seen ?_, fun program left found => ?_⟩
            · rw [if_pos goesOn]
              exact takes.bind_ok (takesOthers.value (head :: ·))
            · obtain ⟨between, same, made⟩ := Read.bind_eq_ok_iff.mp found
              cases same
              obtain ⟨⟨tail, after⟩, foundTail, made⟩ := Read.bind_eq_ok_iff.mp made
              cases made
              rw [List.count_append, took.2, counts tail _ foundTail, List.length_cons, Nat.add_comm]

/-- The action ends. The tokens that it took, of which none is the end of the text, were at least so many if it came to
a value, and the scanner was called once for each. -/
def Advances (least : Nat) (action : Action α) (parser : Parser) : Prop :=
  ∃ (result : Except Stop α) (after : Parser) (taken : List Lexeme),
    action parser = some (result, after) ∧ after.taken = parser.taken ++ taken.map some ∧
      after.scans = parser.scans + taken.length ∧ ∀ value, result = .ok value → least ≤ taken.length

theorem Mirrors.advances {action : Action α} {least ends : Nat} {result : Except Halt (α × List Lexeme)}
    (mirrors : Mirrors action least ends parser.ahead result) : Advances least action parser := by
  obtain ⟨taken, takes, took⟩ := mirrors
  refine ⟨_, _, taken, takes.comes parser rfl, ?_⟩
  cases result with
  | error halt => exact ⟨taken_skip takes.parts, scans_skip parser taken.length, fun _ same => by cases same⟩
  | ok found => exact ⟨taken_skip takes.parts, scans_skip parser taken.length, fun _ _ => took.1⟩

theorem advances_of_stays {action : Action α} {stop : Stop} (least : Nat)
    (stops : action parser = some (.error stop, parser)) : Advances least action parser :=
  ⟨_, parser, [], stops, (List.append_nil _).symm, rfl, fun _ same => by cases same⟩

/-- The fewest tokens that a part of parsing an expression takes. What goes on from an expression may find nothing. -/
def Routine.least : Routine → Nat
  | nested inner => inner.least
  | links _ _ | memberships _ => 0
  | _ => 1

theorem ahead_of_current (current : parser.current = some lexeme) :
    ∃ rest, parser.ahead = lexeme :: rest := by
  unfold ahead
  rw [current]
  exact ⟨_, rfl⟩

theorem current_of_ofToken? {op : BinaryOp} (found : BinaryOp.ofToken? parser.current = some op) :
    parser.current = some (.binary op) := by
  unfold BinaryOp.ofToken? at found
  split at found
  · rename_i same
    cases found
    exact same
  · cases found

/-- The part behind an operator stops at once where there is none. -/
theorem comparison_of_other {limit depth : Nat} {level : Level} {left : Expr}
    (absent : BinaryOp.ofToken? parser.current = none) :
    Routine.run limit depth (.comparison level left) parser =
      some (.error (.noOperator parser.current parser.place), parser) := by
  have stops : binaryOp parser = some (.error (.noOperator parser.current parser.place), parser) := by
    rw [binaryOp, bind_apply, token_apply]
    dsimp only
    rw [absent]
    rfl
  rw [Routine.run.eq_def]
  change (binaryOp >>= _) parser = _
  rw [bind_apply, stops]

theorem run_advances (limit depth : Nat) (routine : Routine) (parser : Parser) :
    Advances routine.least (Routine.run limit depth routine) parser := by
  obtain ⟨expression, infixed, links, operand, unary, atom⟩ := Mirrors.routines limit
  induction routine generalizing depth with
  | nested inner ih =>
      rw [Routine.run.eq_def]
      by_cases room : depth < limit
      · simp only [if_pos room]
        exact ih (depth + 1)
      · simp only [if_neg room]
        exact advances_of_stays _ rfl
  | expression => exact (expression depth parser.ahead).advances
  | ternary =>
      have head := infixed depth .disjunction parser.ahead
      exact (Mirrors.ternary head fun after _ => expression depth after).advances
  | infixed level => exact (infixed depth level parser.ahead).advances
  | operand level => exact (operand depth level parser.ahead).advances
  | links level left => exact (links depth level left parser.ahead).advances
  | comparison level left =>
      cases found : BinaryOp.ofToken? parser.current with
      | none => exact advances_of_stays _ (comparison_of_other found)
      | some op =>
          obtain ⟨rest, standing⟩ := ahead_of_current (current_of_ofToken? found)
          have mirrors : Mirrors (Routine.run limit depth (.comparison level left)) 1 0 (.binary op :: rest) _ :=
            Mirrors.comparison (operand depth level rest)
          rw [← standing] at mirrors
          exact mirrors.advances
  | unary => exact (unary depth parser.ahead).advances
  | primary => exact (Mirrors.primary (atom depth parser.ahead)).advances
  | memberships value => exact (Mirrors.memberships limit depth value parser.ahead).advances
  | atom => exact (atom depth parser.ahead).advances

/-- A number is taken only where there is one: the end of the text has no value. -/
theorem number_advances (parser : Parser) : Advances 1 number parser := by
  cases reads : Literal.read (Lexeme.literal parser.current) with
  | error fault =>
      have stops : number parser =
          some (.error (.problem ⟨.invalidNumber (Lexeme.literal parser.current), parser.place⟩), parser) := by
        rw [number, bind_apply, token_apply]
        dsimp only
        rw [reads]
        rfl
      exact advances_of_stays 1 stops
  | ok value =>
      have takes : number parser = some (.ok value, parser.advanced) := by
        rw [number, bind_apply, token_apply]
        dsimp only
        rw [reads]
        rfl
      cases current : parser.current with
      | none =>
          rw [current] at reads
          cases reads
      | some lexeme =>
          refine ⟨.ok value, parser.advanced, [lexeme], takes, ?_, rfl, fun _ _ => Nat.le_refl 1⟩
          rw [taken_advanced, current]
          rfl

theorem place_skip_succ (parser : Parser) (count : Nat) :
    (parser.skip (count + 1)).place = (parser.scanner.call count).2 := by
  induction count generalizing parser with
  | zero => rfl
  | succ count ih => exact ih parser.advanced

/-- After so many tokens the parser stands at the next one. -/
theorem place_skip (scanner : Scanner) (count : Nat) :
    ((ofScanner scanner).skip count).place = scanner.remaining.positionAt count := by
  have called := congrArg Prod.snd (scanner.call_eq count)
  cases count with
  | zero => exact called
  | succ count => exact (place_skip_succ (ofScanner scanner) count).trans called

theorem success_of_conclusion {limit : Nat} {program : Program} {place : Position}
    (success : conclusion (readProgram limit input) place = .ok program) :
    Read.program limit input = .ok program := by
  rw [readProgram] at success
  cases reads : Read.program limit input with
  | ok found =>
      rw [reads] at success
      cases success
      rfl
  | error halt =>
      rw [reads] at success
      cases success

theorem conclusion_eq_parse {limit : Nat} {source : String} {taken : List Lexeme}
    (parts : (Scan.ofSource source).lexemes =
      taken ++ Read.leftOver (readProgram limit (Scan.ofSource source).lexemes)) :
    conclusion (readProgram limit (Scan.ofSource source).lexemes)
        ((Scan.ofSource source).positionAt taken.length) =
      (Program.parse limit source).mapError .problem := by
  rw [readProgram] at parts ⊢
  rw [Program.parse]
  cases reads : Read.program limit (Scan.ofSource source).lexemes with
  | ok program => rfl
  | error halt =>
      rw [reads] at parts
      have index : (Scan.ofSource source).haltIndex halt = taken.length := by
        rw [Scan.haltIndex, ← Scan.length_lexemes, parts, List.length_append]
        exact Nat.add_sub_cancel _ halt.rest.length
      simp only [Except.mapError, Scan.error, index]
      rfl

/-- A parser on demand always ends, and comes to what reading all lexemes comes to; that a token seen to be an operator is
none never stops it. It takes each token once and in order, never the end of the text, and calls the scanner once more
than that; a program has as many statements as there are terminators. Wherever a parser stands, each part of parsing ends,
and has taken a token if it comes to a value, a statement two. -/
theorem parse_demands (limit : Nat) (source : String) :
    (∃ (result : Except Stop Program) (after : Parser) (count : Nat),
      parse limit source = some (result, after) ∧
        result = (Program.parse limit source).mapError .problem ∧
        (∀ found place, result ≠ .error (.noOperator found place)) ∧
        count ≤ (Scan.ofSource source).tokens.length ∧
        after.taken = ((Scan.ofSource source).lexemes.take count).map some ∧
        after.scans = count + 1 ∧
        ∀ program, result = .ok program → count = (Scan.ofSource source).tokens.length ∧
          program.length = (Scan.ofSource source).lexemes.count .semicolon) ∧
    (∀ depth routine parser, Advances (Routine.least routine) (Routine.run limit depth routine) parser) ∧
    (∀ parser, Advances 1 number parser) ∧
    (∀ parser, Advances 1 literalSet parser) ∧
    ∀ parser, Advances 2 (statement limit) parser := by
  refine ⟨?_, run_advances limit, number_advances, fun parser => (Mirrors.literalSet parser.ahead).advances,
    fun parser => (Mirrors.statement limit parser.ahead).advances⟩
  have standing : (ofScanner (.ofSource source)).ahead = (Scan.ofSource source).lexemes := ahead_ofScanner _
  obtain ⟨taken, takes, counts⟩ := program_takes limit (Scan.ofSource source).lexemes
  have parts := takes.parts
  have comes := takes.comes _ standing
  have took := taken_skip (standing.trans parts)
  have scans := scans_skip (ofScanner (.ofSource source)) taken.length
  have within : taken.length ≤ (Scan.ofSource source).tokens.length := by
    rw [← Scan.length_lexemes, parts, List.length_append]
    exact Nat.le_add_right _ _
  have place : ((ofScanner (.ofSource source)).skip taken.length).place =
      (Scan.ofSource source).positionAt taken.length := place_skip _ _
  have same := conclusion_eq_parse parts
  rw [← place] at same
  refine ⟨_, _, taken.length, comes, same, fun found place stops => ?_, within, ?_, ?_, fun program success => ?_⟩
  · rw [same] at stops
    cases parsed : Program.parse limit source with
    | ok program =>
        rw [parsed] at stops
        cases stops
    | error error =>
        rw [parsed] at stops
        cases stops
  · rw [parts, List.take_left]
    exact took
  · exact scans.trans (Nat.add_comm 1 _)
  · have reads := success_of_conclusion success
    have whole : taken = (Scan.ofSource source).lexemes := by
      rw [readProgram, reads] at parts
      exact (parts.trans (List.append_nil taken)).symm
    rw [whole] at counts ⊢
    exact ⟨Scan.length_lexemes _, (counts program [] (by rw [readProgram, reads]; rfl)).symm⟩

/-- Two statements of eight tokens, one of them the terminator that the text lacks: nine calls of the scanner. -/
theorem parse_demands_two :
    ∃ after : Parser, parse 2 "var a = 1; -a" =
        some (.ok [.assignment "a" (.number 1), .expression (.unary .neg (.name "a"))], after) ∧
      after.scans = 9 ∧ none ∉ after.taken := by
  have parsed : Program.parse 2 "var a = 1; -a" =
      .ok [.assignment "a" (.number 1), .expression (.unary .neg (.name "a"))] := by cbv
  have tokens : (Scan.ofSource "var a = 1; -a").tokens.length = 8 := by cbv
  obtain ⟨⟨result, after, count, ends, same, -, -, took, scans, whole⟩, -⟩ := parse_demands 2 "var a = 1; -a"
  rw [parsed] at same
  subst same
  refine ⟨after, ends, ?_, ?_⟩
  · rw [scans, (whole _ rfl).1, tokens]
  · rw [took]
    intro member
    obtain ⟨lexeme, -, impossible⟩ := List.mem_map.mp member
    cases impossible

end Parser

end Abacus
