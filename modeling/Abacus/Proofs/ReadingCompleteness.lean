import Abacus.Grammar
import Abacus.Proofs.LiteralValue
import Abacus.Proofs.ReadingOutcome

set_option autoImplicit false

namespace Abacus

/-- The height of the loosest operator that may not follow a phrase of the level. A comparison is followed by no
other, whichever of the two levels it is of. -/
def Level.reach (level : Level) : Nat :=
  if level.isComparison then Level.equality.height else level.height

/-- The comparisons stand between the sums and the conjunctions. -/
theorem Level.height_of_isComparison {level : Level} (compares : level.isComparison = true) :
    additive.height < level.height ∧ level.height ≤ equality.height := by
  cases level with
  | equality => decide
  | relational => decide
  | _ => cases compares

namespace Phrase

/-- Whether a lexeme after a phrase of the kind would be read as a part of it. -/
def goesOnWith : Phrase → Lexeme → Bool
  | .expression, .question => true
  | .expression, .connective _ => true
  | .infixed level, .connective op => decide (op.level.height ≤ level.reach)
  | .atom, _ => false
  | _, lexeme => lexeme == .isIn

/-- Nothing that comes next goes on with a phrase of the kind. -/
def EndsBefore (phrase : Phrase) (rest : List Lexeme) : Prop :=
  ∀ lexeme ∈ rest.head?, phrase.goesOnWith lexeme = false

variable {rest : List Lexeme}

theorem endsBefore_cons {phrase : Phrase} {lexeme : Lexeme} :
    phrase.EndsBefore (lexeme :: rest) ↔ phrase.goesOnWith lexeme = false := by
  simp only [EndsBefore, List.head?_cons, Option.mem_some_iff, forall_eq']

theorem EndsBefore.of_expression {phrase : Phrase} (ends : expression.EndsBefore rest) :
    phrase.EndsBefore rest := by
  cases rest with
  | nil => intro lexeme member; cases member
  | cons lexeme after =>
      rw [endsBefore_cons] at ends ⊢
      cases lexeme <;> cases phrase <;> first | rfl | cases ends

theorem EndsBefore.operand {level : Level} (ends : (infixed level).EndsBefore rest) :
    level.operand.EndsBefore rest := by
  cases rest with
  | nil => intro lexeme member; cases member
  | cons lexeme after =>
      rw [endsBefore_cons] at ends ⊢
      cases lexeme with
      | connective op =>
          simp only [goesOnWith, decide_eq_false_iff_not, Nat.not_le] at ends
          cases level <;>
            simp only [Level.operand, Level.tighter?, goesOnWith, decide_eq_false_iff_not, Nat.not_le] <;>
            first | exact Nat.lt_of_le_of_lt (by decide) ends | rfl
      | isIn => cases ends
      | _ => cases level <;> rfl

/-- The right operand of a chained operator ends before the next operator of its level. -/
theorem operand_endsBefore_connective {op : Connective} (chains : op.level.isComparison = false) :
    op.level.operand.EndsBefore (.connective op :: rest) := by
  rw [endsBefore_cons]
  cases level : op.level with
  | equality =>
      rw [level] at chains
      cases chains
  | relational =>
      rw [level] at chains
      cases chains
  | multiplicative => rfl
  | _ =>
      simp only [Level.operand, Level.tighter?, goesOnWith, level]
      rfl

/-- The left operand of a comparison ends before its operator. -/
theorem additive_endsBefore_comparison {op : Connective} (compares : op.level.isComparison = true) :
    (infixed .additive).EndsBefore (.connective op :: rest) := by
  rw [endsBefore_cons]
  have above := (Level.height_of_isComparison compares).1
  simp only [goesOnWith, decide_eq_false_iff_not, Nat.not_le]
  exact above

end Phrase

namespace Read

variable {limit depth : Nat} {rest : List Lexeme} {e : Expr}

theorem text_of_isNumber {lexeme : Lexeme} {value : Int64} (isNumber : lexeme.IsNumber value) :
    ∃ text, lexeme = .number text ∧ Literal.read text = .ok value := by
  obtain ⟨denotes, fits⟩ := isNumber
  rename_i text n
  have normal := Literal.isNormal_of_denotes? denotes
  exact ⟨text, rfl, (Literal.read_eq_ok_iff normal).mpr ⟨n, denotes, fits, rfl⟩⟩

theorem number_of_isNumber {lexeme : Lexeme} {value : Int64} (isNumber : lexeme.IsNumber value)
    (rest : List Lexeme) : (number (lexeme :: rest)).outcome = .ok (value, rest) := by
  obtain ⟨text, rfl, found⟩ := text_of_isNumber isNumber
  simp only [number, found, outcome_ok]

theorem numbers_of_areNumbers {lexemes : List Lexeme} {values : List Int64}
    (areNumbers : Lexeme.AreNumbers lexemes values) (rest : List Lexeme) :
    (numbers (lexemes ++ .rbracket :: rest)).outcome = .ok (values, .rbracket :: rest) := by
  induction areNumbers with
  | last isNumber =>
      rw [List.singleton_append, outcome_numbers, number_of_isNumber isNumber]
      rfl
  | more isNumber others ih =>
      rw [List.cons_append, List.cons_append, outcome_numbers, number_of_isNumber isNumber]
      simp only [bind, Except.bind, ih]
      rfl

theorem literalSet_of_areNumbers {lexemes : List Lexeme} {values : List Int64}
    (areNumbers : Lexeme.AreNumbers lexemes values) (rest : List Lexeme) :
    (literalSet (.lbracket :: lexemes ++ .rbracket :: rest)).outcome = .ok (values, rest) := by
  rw [List.cons_append, outcome_literalSet, outcome_sign_self]
  simp only [bind, Except.bind, numbers_of_areNumbers areNumbers, outcome_sign_self]
  rfl

theorem membershipsFrom_of_ends (ends : Phrase.unary.EndsBefore rest) :
    membershipsFrom e rest = .ok (e, rest) := by
  rw [membershipsFrom_eq]
  split
  · rw [Phrase.endsBefore_cons] at ends
    cases ends
  · rfl

theorem linksFrom_of_ends {level : Level} (ends : (Phrase.infixed level).EndsBefore rest) :
    linksFrom limit depth level e rest = .ok (e, rest) := by
  refine linksFrom_of_other fun op after stop => ?_
  subst stop
  rw [Phrase.endsBefore_cons] at ends
  simp only [Phrase.goesOnWith, decide_eq_false_iff_not, Nat.not_le] at ends
  rintro rfl
  cases level : op.level <;> rw [level] at ends <;> exact absurd ends (by decide)

theorem comparison?_of_ends {level : Level} (compares : level.isComparison = true)
    (ends : (Phrase.infixed level).EndsBefore rest) : comparison? rest = none := by
  unfold comparison?
  split
  · rename_i op after
    rw [Phrase.endsBefore_cons] at ends
    simp only [Phrase.goesOnWith, Level.reach, compares, if_true, decide_eq_false_iff_not,
      Nat.not_le] at ends
    rw [if_neg]
    intro compared
    have below := (Level.height_of_isComparison compared).2
    exact Nat.not_lt_of_le below ends
  · rfl

theorem unaryOp?_of_atom {input : List Lexeme}
    (success : (atom limit depth input).outcome = .ok (e, rest)) : unaryOp? input = none := by
  unfold unaryOp?
  split
  · rw [outcome_atom] at success
    cases success
  · rw [outcome_atom] at success
    cases success
  · rfl

/-- What reading a phrase comes to in front of a rest. Phrases that grow to the right are read up to the point
where the reader looks for more of them. -/
def Reads (limit : Nat) : Phrase → List Lexeme → Expr → Prop
  | .expression, lexemes, e => ∀ depth rest, depth + 1 + e.nesting ≤ limit →
      Phrase.expression.EndsBefore rest →
        (expression limit depth (lexemes ++ rest)).outcome = .ok (e, rest)
  | .infixed level, lexemes, e => ∀ depth rest, depth + e.nesting ≤ limit →
      (if level.isComparison then Phrase.infixed level else level.operand).EndsBefore rest →
        (infixed limit depth level (lexemes ++ rest)).outcome = linksFrom limit depth level e rest
  | .unary, lexemes, e => ∀ depth rest, depth + e.nesting ≤ limit → Phrase.unary.EndsBefore rest →
      (unary limit depth (lexemes ++ rest)).outcome = .ok (e, rest)
  | .primary, lexemes, e => ∀ depth rest, depth + e.nesting ≤ limit →
      (unary limit depth (lexemes ++ rest)).outcome = membershipsFrom e rest
  | .atom, lexemes, e => ∀ depth rest, depth + e.nesting ≤ limit →
      (atom limit depth (lexemes ++ rest)).outcome = .ok (e, rest)

variable {lexemes : List Lexeme}

theorem Reads.infixed_ends {level : Level} (reads : Reads limit (.infixed level) lexemes e)
    (fits : depth + e.nesting ≤ limit) (ends : (Phrase.infixed level).EndsBefore rest) :
    (infixed limit depth level (lexemes ++ rest)).outcome = .ok (e, rest) := by
  rw [reads depth rest fits, linksFrom_of_ends ends]
  split
  · exact ends
  · exact ends.operand

theorem Reads.operand_ends {level : Level} (reads : Reads limit level.operand lexemes e)
    (fits : depth + e.nesting ≤ limit) (ends : level.operand.EndsBefore rest) :
    (operand limit depth level (lexemes ++ rest)).outcome = .ok (e, rest) := by
  rw [outcome_operand]
  unfold Level.operand at reads ends
  cases tighter : level.tighter? with
  | some next =>
      simp only [tighter] at reads ends
      exact reads.infixed_ends fits ends
  | none =>
      simp only [tighter] at reads ends
      exact reads depth rest fits ends

/-- The left operand of a comparison is read as its operand, past the level between them if there is one. -/
theorem Reads.additive_operand {op : BinaryOp} (compares : op.isComparison = true)
    (reads : Reads limit (.infixed .additive) lexemes e) (fits : depth + e.nesting ≤ limit) :
    (operand limit depth op.level (lexemes ++ .connective (.binary op) :: rest)).outcome =
      .ok (e, .connective (.binary op) :: rest) := by
  have ends : (Phrase.infixed .additive).EndsBefore (.connective (.binary op) :: rest) :=
    Phrase.additive_endsBefore_comparison compares
  have additive := reads.infixed_ends fits ends
  have relational : (operand limit depth .relational
      (lexemes ++ .connective (.binary op) :: rest)).outcome =
        .ok (e, .connective (.binary op) :: rest) := by
    rw [outcome_operand]
    exact additive
  cases level : op.level with
  | relational => exact relational
  | equality =>
      rw [outcome_operand]
      simp only [Level.tighter?]
      rw [outcome_infixed, relational]
      simp only [bind, Except.bind]
      rw [linksFrom_eq]
      simp only [Connective.level, level, reduceCtorEq, if_false]
  | _ =>
      rw [BinaryOp.isComparison, level] at compares
      cases compares

theorem Reads.plain (body : Reads limit (.infixed .disjunction) lexemes e) :
    Reads limit .expression lexemes e := by
  intro depth rest fits ends
  have condition : (infixed limit (depth + 1) .disjunction (lexemes ++ rest)).outcome =
      .ok (e, rest) := body.infixed_ends fits ends.of_expression
  rw [outcome_expression, if_pos (by omega), condition]
  simp only [bind, Except.bind]
  split
  · rw [Phrase.endsBefore_cons] at ends
    cases ends
  · rfl

theorem Reads.ternary {first second third : List Lexeme} {condition yes no : Expr}
    (head : Reads limit (.infixed .disjunction) first condition)
    (left : Reads limit .expression second yes) (right : Reads limit .expression third no) :
    Reads limit .expression (first ++ .question :: second ++ .colon :: third)
      (.ternary condition yes no) := by
  intro depth rest fits ends
  simp only [Expr.nesting] at fits
  have readHead : (infixed limit (depth + 1) .disjunction
        (first ++ .question :: (second ++ .colon :: (third ++ rest)))).outcome =
      .ok (condition, .question :: (second ++ .colon :: (third ++ rest))) :=
    head.infixed_ends (by omega) (Phrase.endsBefore_cons.mpr rfl)
  have readLeft := left (depth + 1) (.colon :: (third ++ rest)) (by omega)
    (Phrase.endsBefore_cons.mpr rfl)
  have readRight := right (depth + 1) rest (by omega) ends
  have regrouped : first ++ .question :: second ++ .colon :: third ++ rest =
      first ++ .question :: (second ++ .colon :: (third ++ rest)) := by
    simp only [List.append_assoc, List.cons_append]
  rw [regrouped, outcome_expression, if_pos (by omega), readHead]
  simp only [bind, Except.bind, readLeft, outcome_sign_self, readRight]
  rfl

theorem Reads.tighter {level : Level} (body : Reads limit level.operand lexemes e) :
    Reads limit (.infixed level) lexemes e := by
  intro depth rest fits ends
  have operandEnds : level.operand.EndsBefore rest := by
    split at ends
    · exact ends.operand
    · exact ends
  rw [outcome_infixed, body.operand_ends fits operandEnds]
  rfl

section Operators

variable {first second : List Lexeme} {left right : Expr}

/-- The left operand of an operator that chains is read, and then the operator is looked at. -/
theorem Reads.chained_operand {op : Connective} (chains : op.level.isComparison = false)
    (reads : Reads limit (.infixed op.level) lexemes e) (fits : depth + e.nesting ≤ limit) :
    (infixed limit depth op.level (lexemes ++ .connective op :: rest)).outcome =
      linksFrom limit depth op.level e (.connective op :: rest) := by
  refine reads depth (.connective op :: rest) fits ?_
  simp only [chains, Bool.false_eq_true, if_false]
  exact Phrase.operand_endsBefore_connective chains

theorem Reads.joined {op : Connective} (chains : op.level.isComparison = false)
    (before : Reads limit (.infixed op.level) first left)
    (after : Reads limit op.level.operand second right) :
    Reads limit (.infixed op.level) (first ++ .connective op :: second) (op.join left right) := by
  intro depth rest fits ends
  simp only [chains, Bool.false_eq_true, if_false] at ends
  rw [Expr.nesting_join] at fits
  have readAfter : (operand limit depth op.level (second ++ rest)).outcome = .ok (right, rest) :=
    after.operand_ends (by omega) ends
  rw [List.append_assoc, List.cons_append, before.chained_operand chains (by omega), linksFrom_eq]
  simp only [if_true, readAfter, bind, Except.bind, chains, Bool.false_eq_true, if_false]

theorem Reads.compared {op : BinaryOp} (compares : op.isComparison = true)
    (before : Reads limit (.infixed .additive) first left)
    (after : Reads limit op.level.operand second right) :
    Reads limit (.infixed op.level) (first ++ .binary op :: second) (.binary op left right) := by
  intro depth rest fits ends
  have levelCompares : op.level.isComparison = true := compares
  simp only [levelCompares, if_true] at ends
  simp only [Expr.nesting] at fits
  have readBefore : (operand limit depth op.level
        (first ++ .connective (.binary op) :: (second ++ rest))).outcome =
      .ok (left, .connective (.binary op) :: (second ++ rest)) :=
    before.additive_operand compares (by omega)
  have readAfter : (operand limit depth op.level (second ++ rest)).outcome = .ok (right, rest) :=
    after.operand_ends (by omega) ends.operand
  rw [List.append_assoc, List.cons_append, outcome_infixed, readBefore, linksFrom_of_ends ends]
  simp only [bind, Except.bind]
  rw [linksFrom_eq]
  simp only [Connective.level, if_true, readAfter, bind, Except.bind, levelCompares,
    comparison?_of_ends levelCompares ends]
  rfl

end Operators

/-- A unary operator and its operand are read, whichever sign the operator has. -/
theorem Reads.prefixed {op : UnaryOp} {sign : Lexeme} (body : Reads limit .unary lexemes e)
    (begins : ∀ rest, unaryOp? (sign :: rest) = some (op, rest)) :
    Reads limit .unary (sign :: lexemes) (.unary op e) := by
  intro depth rest fits ends
  simp only [Expr.nesting] at fits
  have room : depth < limit := by omega
  have readBody := body (depth + 1) rest (by omega) ends
  rw [List.cons_append, outcome_unary, begins]
  simp only [if_pos room, readBody, bind, Except.bind]
  rfl

theorem Reads.member {second : List Lexeme} {set : List Int64}
    (before : Reads limit .primary lexemes e) (after : Lexeme.AreNumbers second set) :
    Reads limit .primary (lexemes ++ .isIn :: .lbracket :: second ++ [.rbracket])
      (.member e set) := by
  intro depth rest fits
  have regrouped : lexemes ++ .isIn :: .lbracket :: second ++ [.rbracket] ++ rest =
      lexemes ++ .isIn :: (.lbracket :: second ++ .rbracket :: rest) := by
    simp only [List.append_assoc, List.cons_append, List.nil_append]
  rw [regrouped, before depth _ fits, membershipsFrom_eq]
  simp only [literalSet_of_areNumbers after rest, bind, Except.bind]

theorem Reads.paren (body : Reads limit .expression lexemes e) :
    Reads limit .atom (.lparen :: lexemes ++ [.rparen]) (.paren e) := by
  intro depth rest fits
  simp only [Expr.nesting] at fits
  have readInner := body depth (.rparen :: rest) (by omega) (Phrase.endsBefore_cons.mpr rfl)
  have regrouped : .lparen :: lexemes ++ [.rparen] ++ rest =
      .lparen :: (lexemes ++ .rparen :: rest) := by
    simp only [List.append_assoc, List.cons_append, List.nil_append]
  rw [regrouped, outcome_atom]
  simp only [readInner, outcome_sign_self, bind, Except.bind]
  rfl

/-- Every phrase is read, by induction along its derivation. -/
theorem completeness {phrase : Phrase} (spells : Spells phrase lexemes e) :
    Reads limit phrase lexemes e := by
  induction spells with
  | plain _ ih => exact ih.plain
  | ternary _ _ _ ihHead ihLeft ihRight => exact ihHead.ternary ihLeft ihRight
  | tighter _ ih => exact ih.tighter
  | joined chains _ _ ihBefore ihAfter => exact ihBefore.joined chains ihAfter
  | compared compares _ _ ihBefore ihAfter => exact ihBefore.compared compares ihAfter
  | negated _ ih => exact ih.prefixed fun _ => rfl
  | denied _ ih => exact ih.prefixed fun _ => rfl
  | primary _ ih =>
      intro depth rest fits ends
      rw [ih depth rest fits, membershipsFrom_of_ends ends]
  | member _ after ih => exact ih.member after
  | atom _ ih =>
      intro depth rest fits
      have found := ih depth rest fits
      rw [outcome_unary, unaryOp?_of_atom found]
      simp only [found, bind, Except.bind]
  | number isNumber =>
      intro depth rest fits
      obtain ⟨text, rfl, found⟩ := text_of_isNumber isNumber
      rw [List.singleton_append, outcome_atom]
      simp only [found]
  | name =>
      intro depth rest fits
      rw [List.singleton_append, outcome_atom]
  | paren _ ih => exact ih.paren

end Read

end Abacus
