import Abacus.Parser
import Abacus.Proofs.NestingLimit
import Abacus.Proofs.ScanTiling

set_option autoImplicit false

namespace Abacus

/-- What a call of the scanner gives and what it leaves are what it had left before. -/
theorem Scanner.lexemes_remaining (scanner : Scanner) :
    scanner.remaining.lexemes =
      match scanner.next.1.1 with
      | some lexeme => lexeme :: scanner.next.2.remaining.lexemes
      | none => [] := by
  cases scanner.finds with
  | stop _ given left => rw [given, left]; rfl
  | token _ _ _ _ _ given left => rw [given, left]; rfl

namespace Parser

variable {α β : Type} {parser : Parser} {input rest : List Lexeme} {lexeme : Lexeme}

/-- The lexemes from the token of the parser on. -/
def ahead (parser : Parser) : List Lexeme :=
  match parser.current with
  | some lexeme => lexeme :: parser.scanner.remaining.lexemes
  | none => []

theorem head?_ahead (parser : Parser) : parser.ahead.head? = parser.current := by
  unfold ahead
  cases parser.current <;> rfl

theorem ahead_ofScanner (scanner : Scanner) : (ofScanner scanner).ahead = scanner.remaining.lexemes :=
  scanner.lexemes_remaining.symm

theorem ahead_advanced (begins : parser.ahead = lexeme :: rest) : parser.advanced.ahead = rest := by
  unfold ahead at begins
  cases holds : parser.current with
  | none =>
      rw [holds] at begins
      cases begins
  | some current =>
      rw [holds] at begins
      obtain ⟨-, rfl⟩ := List.cons.inj begins
      exact parser.scanner.lexemes_remaining.symm

theorem scans_advanced (parser : Parser) : parser.advanced.scans = parser.scans + 1 := rfl

theorem taken_advanced (parser : Parser) : parser.advanced.taken = parser.taken ++ [parser.current] := rfl

def skip (parser : Parser) : (count : Nat) → Parser
  | 0 => parser
  | count + 1 => parser.advanced.skip count

theorem skip_skip (parser : Parser) (first second : Nat) :
    (parser.skip first).skip second = parser.skip (first + second) := by
  induction first generalizing parser with
  | zero => rw [Nat.zero_add, skip]
  | succ first ih => rw [Nat.succ_add, skip, skip, ih]

theorem scans_skip (parser : Parser) (count : Nat) : (parser.skip count).scans = parser.scans + count := by
  induction count generalizing parser with
  | zero => rfl
  | succ count ih =>
      rw [skip, ih, scans_advanced]
      omega

theorem ahead_skip {taken : List Lexeme} (parts : parser.ahead = taken ++ rest) :
    (parser.skip taken.length).ahead = rest := by
  induction taken generalizing parser with
  | nil => exact parts
  | cons lexeme taken ih => exact ih (ahead_advanced parts)

/-- Lexemes that are ahead are taken in order. -/
theorem taken_skip {taken : List Lexeme} (parts : parser.ahead = taken ++ rest) :
    (parser.skip taken.length).taken = parser.taken ++ taken.map some := by
  induction taken generalizing parser with
  | nil => exact (List.append_nil _).symm
  | cons lexeme taken ih =>
      have current : parser.current = some lexeme := by rw [← head?_ahead, parts]; rfl
      have later := ih (ahead_advanced parts)
      rw [taken_advanced, current, List.append_assoc] at later
      exact later

def conclusion (result : Except Halt (α × List Lexeme)) (place : Position) : Except Stop α :=
  match result with
  | .ok (value, _) => .ok value
  | .error halt => .error (.problem ⟨halt.problem, place⟩)

def ending (result : Except Halt (α × List Lexeme)) (after : Parser) : Except Stop α × Parser :=
  (conclusion result after.place, after)

theorem bind_apply (first : Action α) (next : α → Action β) (parser : Parser) :
    (first >>= next) parser =
      match first parser with
      | some (.ok value, after) => next value after
      | some (.error stop, after) => some (.error stop, after)
      | none => none := by
  change (first parser).bind _ = _
  cases first parser with
  | none => rfl
  | some found =>
      obtain ⟨result, after⟩ := found
      cases result <;> rfl

theorem token_apply (parser : Parser) : token parser = some (.ok parser.current, parser) := rfl

/-- In front of the input, the action takes the lexemes that the reading takes, and comes to its result. -/
structure Takes (action : Action α) (taken input : List Lexeme) (result : Except Halt (α × List Lexeme)) : Prop where
  parts : input = taken ++ Read.leftOver result
  comes (parser : Parser) (standing : parser.ahead = input) :
    action parser = some (ending result (parser.skip taken.length))

namespace Takes

variable {action : Action α} {taken others : List Lexeme} {next : α → Action β}

theorem nothing {result : Except Halt (α × List Lexeme)} (left : Read.leftOver result = input)
    (stays : ∀ parser : Parser, action parser = some (ending result parser)) : Takes action [] input result :=
  ⟨left.symm, fun parser _ => stays parser⟩

/-- Actions that agree in front of a token take the same. -/
theorem of_current {same : Action α} {result : Except Halt (α × List Lexeme)} (takes : Takes same taken input result)
    (agree : ∀ parser : Parser, parser.current = input.head? → action parser = same parser) :
    Takes action taken input result where
  parts := takes.parts
  comes parser standing := by
    rw [agree parser (by rw [← head?_ahead, standing]), takes.comes parser standing]

/-- What depends on the token goes by the first lexeme. -/
theorem seen {next : Option Lexeme → Action α} {result : Except Halt (α × List Lexeme)}
    (takes : Takes (next input.head?) taken input result) : Takes (token >>= next) taken input result :=
  takes.of_current fun parser current => by
    rw [← current]
    rfl

theorem bind_error {halt : Halt} (head : Takes action taken input (.error halt)) :
    Takes (action >>= next) taken input (.error halt) where
  parts := head.parts
  comes parser standing := by
    rw [bind_apply, head.comes parser standing]
    rfl

theorem bind_ok {value : α} {nextResult : Except Halt (β × List Lexeme)}
    (head : Takes action taken input (.ok (value, rest))) (tail : Takes (next value) others rest nextResult) :
    Takes (action >>= next) (taken ++ others) input nextResult where
  parts := by rw [head.parts, List.append_assoc, ← tail.parts, Read.leftOver]
  comes parser standing := by
    have reached := ahead_skip (standing.trans head.parts)
    rw [bind_apply, head.comes parser standing, List.length_append, ← skip_skip]
    exact tail.comes _ reached

/-- What only the value changes. -/
theorem value {result : Except Halt (α × List Lexeme)} (takes : Takes action taken input result) (f : α → β) :
    Takes (do
      let value ← action
      return f value) taken input (do
      let (value, rest) ← result
      return (f value, rest)) := by
  cases result with
  | error halt => exact takes.bind_error
  | ok found =>
      have last : Takes (Pure.pure (f found.1) : Action β) [] found.2 (.ok (f found.1, found.2)) :=
        .nothing rfl fun _ => rfl
      have whole : Takes (action >>= fun value => Pure.pure (f value)) (taken ++ []) input _ := takes.bind_ok last
      rw [List.append_nil] at whole
      exact whole

end Takes

/-- Of the lexemes that a reading took, how many there are at least and how many of them are terminators, if it did not
halt. A reading that halts took no terminator. -/
def Took (least ends : Nat) (taken : List Lexeme) : Except Halt (α × List Lexeme) → Prop
  | .ok _ => least ≤ taken.length ∧ taken.count .semicolon = ends
  | .error _ => taken.count .semicolon = 0

/-- In front of the input, the action comes to the result of a reading, and takes as many lexemes as there have to be. -/
def Mirrors (action : Action α) (least ends : Nat) (input : List Lexeme)
    (result : Except Halt (α × List Lexeme)) : Prop :=
  ∃ taken, Takes action taken input result ∧ Took least ends taken result

namespace Mirrors

variable {action : Action α} {least ends : Nat} {result : Except Halt (α × List Lexeme)}

/-- Actions that agree in front of a token mirror the same. -/
theorem of_current {same : Action α} (mirrors : Mirrors same least ends input result)
    (agree : ∀ parser : Parser, parser.current = input.head? → action parser = same parser) :
    Mirrors action least ends input result := by
  obtain ⟨taken, takes, took⟩ := mirrors
  exact ⟨taken, takes.of_current agree, took⟩

/-- What depends on the token goes by the first lexeme. -/
theorem seen {next : Option Lexeme → Action α} (mirrors : Mirrors (next input.head?) least ends input result) :
    Mirrors (token >>= next) least ends input result := by
  obtain ⟨taken, takes, took⟩ := mirrors
  exact ⟨taken, takes.seen, took⟩

theorem mono (mirrors : Mirrors action least ends input result) {fewer : Nat} (order : fewer ≤ least) :
    Mirrors action fewer ends input result := by
  obtain ⟨taken, takes, took⟩ := mirrors
  refine ⟨taken, takes, ?_⟩
  cases result with
  | ok found => exact ⟨Nat.le_trans order took.1, took.2⟩
  | error halt => exact took

theorem pure (value : α) (input : List Lexeme) :
    Mirrors (Pure.pure value : Action α) 0 0 input (.ok (value, input)) :=
  ⟨[], .nothing rfl fun _ => rfl, Nat.le_refl 0, rfl⟩

theorem fail (least ends : Nat) (problem : Problem) (input : List Lexeme) :
    Mirrors (Parser.fail problem : Action α) least ends input (.error ⟨problem, input⟩) :=
  ⟨[], .nothing rfl fun _ => rfl, rfl⟩

theorem unexpected (least ends : Nat) (expected : Expected) (input : List Lexeme) :
    Mirrors (Parser.unexpected expected : Action α) least ends input
      (.error ⟨.unexpected expected input.head?, input⟩) :=
  (fail least ends (.unexpected expected input.head?) input).of_current fun parser same => by
    rw [← same]
    rfl

theorem advance (lexeme : Lexeme) (rest : List Lexeme) :
    Mirrors Parser.advance 1 ([lexeme].count .semicolon) (lexeme :: rest) (.ok ((), rest)) :=
  ⟨[lexeme], ⟨rfl, fun _ _ => rfl⟩, Nat.le_refl 1, rfl⟩

theorem bind {next : α → Action β} {nextResult : α × List Lexeme → Except Halt (β × List Lexeme)}
    {more : Nat} (head : Mirrors action least 0 input result)
    (tail : ∀ value rest, result = .ok (value, rest) →
      Mirrors (next value) more ends rest (nextResult (value, rest))) :
    Mirrors (action >>= next) (least + more) ends input (result >>= nextResult) := by
  obtain ⟨taken, takes, took⟩ := head
  cases result with
  | error halt => exact ⟨taken, takes.bind_error, took⟩
  | ok found =>
      obtain ⟨value, rest⟩ := found
      obtain ⟨others, takesOthers, tookOthers⟩ := tail value rest rfl
      refine ⟨taken ++ others, takes.bind_ok takesOthers, ?_⟩
      change Took (least + more) ends (taken ++ others) (nextResult (value, rest))
      cases came : nextResult (value, rest) with
      | ok last =>
          rw [came] at tookOthers
          rw [Took, List.length_append, List.count_append, took.2, tookOthers.2, Nat.zero_add]
          exact ⟨Nat.add_le_add took.1 tookOthers.1, rfl⟩
      | error halt =>
          rw [came] at tookOthers
          rw [Took, List.count_append, took.2, Nat.zero_add]
          exact tookOthers

/-- What comes after a part may take nothing. -/
theorem andThen {next : α → Action β} {nextResult : α × List Lexeme → Except Halt (β × List Lexeme)}
    (head : Mirrors action least 0 input result)
    (tail : ∀ value rest, result = .ok (value, rest) →
      Mirrors (next value) 0 ends rest (nextResult (value, rest))) :
    Mirrors (action >>= next) least ends input (result >>= nextResult) :=
  head.bind tail

/-- What only the value changes. -/
theorem value (mirrors : Mirrors action least ends input result) (f : α → β) :
    Mirrors (do
      let value ← action
      return f value) least ends input (do
      let (value, rest) ← result
      return (f value, rest)) := by
  obtain ⟨taken, takes, took⟩ := mirrors
  cases result with
  | error halt => exact ⟨taken, takes.value f, took⟩
  | ok found => exact ⟨taken, takes.value f, took⟩

theorem inside {least : Nat} (mirrors : Mirrors action least ([lexeme].count .semicolon) input result)
    (inside : lexeme ≠ .semicolon) : Mirrors action least 0 input result := by
  rwa [List.count_eq_zero.mpr fun member => inside (List.mem_singleton.mp member).symm] at mirrors

/-- A token is taken that ends no statement, and then the action goes on. -/
theorem behind (mirrors : Mirrors action least ends rest result) (inside : lexeme ≠ .semicolon) :
    Mirrors (do
      Parser.advance
      action) (1 + least) ends (lexeme :: rest) result := by
  change Mirrors (Parser.advance >>= fun _ => action) (1 + least) ends (lexeme :: rest)
    (Except.ok ((), rest) >>= fun _ => result)
  refine ((advance lexeme rest).inside inside).bind fun _ _ found => ?_
  cases found
  exact mirrors

theorem advancing (mirrors : Mirrors action 0 ends rest result) (inside : lexeme ≠ .semicolon) :
    Mirrors (do
      Parser.advance
      action) 1 ends (lexeme :: rest) result :=
  mirrors.behind inside

/-- What only looks at the token finds the same value in front of every input with that token. -/
theorem known {first : Action α} {found : α} {next : α → Action β} {least ends : Nat}
    {result : Except Halt (β × List Lexeme)}
    (finds : ∀ parser : Parser, parser.current = input.head? → first parser = some (.ok found, parser))
    (mirrors : Mirrors (next found) least ends input result) : Mirrors (first >>= next) least ends input result :=
  mirrors.of_current fun parser current => by rw [bind_apply, finds parser current]

end Mirrors

end Parser

end Abacus
