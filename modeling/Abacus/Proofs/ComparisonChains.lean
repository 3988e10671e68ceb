import Abacus.Proofs.RoundTrip
import Abacus.Proofs.ScanConcat
import Abacus.Proofs.Surroundings

set_option autoImplicit false

namespace Abacus

theorem BinaryOp.level_of_isComparison {op : BinaryOp} (compares : op.isComparison = true) :
    op.level = .equality ∨ op.level = .relational := by
  cases op <;> first | exact Or.inl rfl | exact Or.inr rfl | cases compares

theorem Connective.symbol_visible (op : Connective) :
    ∃ c marks, op.symbol.toList = c :: marks ∧ Text.isLayout c = false := by
  cases op with
  | binary op => cases op <;> exact ⟨_, _, rfl, rfl⟩
  | logic op => cases op <;> exact ⟨_, _, rfl, rfl⟩

namespace Expr

/-- The tree is canonical, and its outermost operator is additive or binds tighter. -/
def IsSum (e : Expr) : Prop := e.looseness ≤ (Phrase.infixed .additive).looseness ∧ e.IsCanonical

theorem IsSum.spells {e : Expr} (sum : e.IsSum) : Spells (.infixed .additive) e.lexemes e :=
  sum.2.spells sum.1

/-- A comparison of a sum with what its operator may have to the right is canonical. -/
theorem IsSum.compared {op : BinaryOp} {left right : Expr} (sum : left.IsSum)
    (compares : op.isComparison = true) (tight : right.looseness ≤ op.level.operand.looseness)
    (canonical : right.IsCanonical) : (binary op left right).IsCanonical :=
  (isCanonical_comparison compares).mpr ⟨sum.1, tight, sum.2, canonical⟩

theorem IsSum.looseness_le_operand {op : BinaryOp} {e : Expr} (sum : e.IsSum)
    (compares : op.isComparison = true) : e.looseness ≤ op.level.operand.looseness := by
  have above := (Level.height_of_isComparison compares).1
  rw [Phrase.looseness_operand]
  exact Nat.le_trans sum.1 (Nat.succ_le_succ above)

theorem looseness_of_isComparison {op : BinaryOp} {left right : Expr}
    (compares : op.isComparison = true) :
    (binary op left right).looseness ≤ (Phrase.infixed .equality).looseness :=
  Nat.add_le_add_right (Level.height_of_isComparison compares).2 2

end Expr

namespace Read

variable {limit : Nat} {input rest : List Lexeme}

/-- No expression begins with the mark of an assignment, or where nothing is left. -/
theorem expression_of_misplaced (misplaced : ∀ lexeme ∈ input.head?, lexeme = .var) (positive : 0 < limit) :
    (expression limit 0 input).outcome = .error ⟨.unexpected .expression input.head?, input⟩ := by
  have halts : Halts limit ⟨.unexpected .expression input.head?, input⟩ 0 input .atom := by
    intro depth fits
    rw [outcome_unary, outcome_atom]
    cases input with
    | nil => rfl
    | cons lexeme rest =>
        obtain rfl := misplaced lexeme rfl
        rfl
  have noExpression : Halts limit _ 0 input .expression := halts.loosen (Nat.zero_le _)
  exact noExpression 0 positive

/-- A text whose first statement refuses to be read is no program. -/
theorem program_of_refuses {e : Expr} {op : BinaryOp}
    (refuses : Refuses limit ⟨.chainedComparison op, rest⟩ input e) (fits : e.nesting < limit) :
    Read.program limit input = .error ⟨.chainedComparison op, rest⟩ := by
  have halts := refuses .expression e.looseness_le 0 (by omega)
  have placed : ¬∀ lexeme ∈ input.head?, lexeme = .var := by
    intro misplaced
    rw [expression_of_misplaced misplaced (by omega)] at halts
    cases halts
  have filled : input ≠ [] := by
    rintro rfl
    exact placed nofun
  have stops : (Read.statement limit input).outcome = .error ⟨.chainedComparison op, rest⟩ := by
    rw [outcome_statement]
    split
    · exact absurd (fun lexeme same => (Option.some.inj same).symm) placed
    · rw [halts]
      rfl
  rw [program_eq filled, stops]
  rfl

/-- A comparison behind another one halts the reader, but for a relation behind an equality. -/
theorem halts_of_chained {a b : Expr} {first second : BinaryOp} {lexemes others : List Lexeme}
    (compares : first.isComparison = true) (comparesNext : second.isComparison = true)
    (chained : ¬(first.level = .equality ∧ second.level = .relational))
    (before : Spells (.infixed .additive) lexemes a) (between : Spells (.infixed .additive) others b) :
    Halts limit ⟨.chainedComparison second, .binary second :: rest⟩ (max a.nesting b.nesting)
      (lexemes ++ .binary first :: (others ++ .binary second :: rest)) (.infixed first.level) := by
  intro depth fits
  have readBefore : (operand limit depth first.level
        (lexemes ++ .binary first :: (others ++ .binary second :: rest))).outcome =
      .ok (a, .binary first :: (others ++ .binary second :: rest)) :=
    (completeness before).additive_operand compares (by omega)
  have readBetween : (operand limit depth first.level (others ++ .binary second :: rest)).outcome =
      .ok (b, .binary second :: rest) := by
    -- the operand ends before an operator of its own level, and a sum ends before each comparison
    by_cases same : second.level = first.level
    · rw [← same]
      exact (completeness between).additive_operand comparesNext (by omega)
    · have relational : first.level = .relational := by
        rcases BinaryOp.level_of_isComparison compares with equality | relational
        · rcases BinaryOp.level_of_isComparison comparesNext with equalityNext | relational
          · exact absurd (equalityNext.trans equality.symm) same
          · exact absurd ⟨equality, relational⟩ chained
        · exact relational
      rw [relational, outcome_operand]
      exact (completeness between).infixed_ends (by omega)
        (Phrase.additive_endsBefore_comparison comparesNext)
  have levelCompares : first.level.isComparison = true := compares
  have refused : comparison? (.binary second :: rest) = some second := if_pos comparesNext
  rw [outcome_infixed, readBefore]
  simp only [bind, Except.bind]
  rw [linksFrom_eq]
  simp only [Connective.level, if_true, readBetween, bind, Except.bind, levelCompares, refused]

end Read

namespace Program

open Scan

variable {limit : Nat} {a b c : Expr} {first second : BinaryOp} {around : Surrounding}

/-- The text of two comparisons in a row, in its surroundings. -/
theorem text_chain (a b c : Expr) (first second : BinaryOp) (around : Surrounding) :
    text [.expression (around.fill (.binary first a (.binary second b c)))] =
      around.before ++ a.text ++ " " ++ first.symbol ++ " " ++ b.text ++ " " ++ second.symbol ++ " " ++
        c.text ++ around.after ++ ";" := by
  rw [text, List.map_singleton, String.intercalate_singleton]
  simp only [Statement.text, Surrounding.text_fill, Expr.text, String.append_assoc]

/-- A relation behind an equality is its right operand. -/
theorem parse_relation_after_equality (sumA : a.IsSum) (sumB : b.IsSum) (sumC : c.IsSum)
    (equality : first.level = .equality) (relational : second.level = .relational)
    (takes : around.Takes (.infixed .equality) .expression)
    (fits : (around.fill (.binary first a (.binary second b c))).nesting < limit) :
    parse limit (text [.expression (around.fill (.binary first a (.binary second b c)))]) =
      .ok [.expression (around.fill (.binary first a (.binary second b c)))] := by
  have compares : first.isComparison = true := by rw [BinaryOp.isComparison, equality]; rfl
  have comparesNext : second.isComparison = true := by rw [BinaryOp.isComparison, relational]; rfl
  have relation : (Expr.binary second b c).IsCanonical :=
    sumB.compared comparesNext (sumC.looseness_le_operand comparesNext) sumC.2
  have tight : (Expr.binary second b c).looseness ≤ first.level.operand.looseness := by
    rw [equality, Expr.looseness, relational]
    exact Nat.le_refl _
  have canonical := (takes _ (sumA.compared compares tight relation)
    (Expr.looseness_of_isComparison compares)).1
  exact parse_text_of_isCanonical (List.forall_mem_singleton.mpr ⟨canonical, fits⟩)

/-- Up to the second operator the text has the lexemes of the first comparison in its surroundings, and the operator is
the next token. -/
theorem ofSource_chain (second : BinaryOp) (c : Expr)
    (canonical : (around.fill (.binary first a b)).IsCanonical)
    (canonicalPair : (Expr.binary first a b).IsCanonical) :
    (∃ rest, (ofSource (text
        [.expression (around.fill (.binary first a (.binary second b c)))])).lexemes =
      (around.lexemesBefore ++ (Expr.binary first a b).lexemes) ++ .binary second :: rest) ∧
    (ofSource (text [.expression (around.fill (.binary first a (.binary second b c)))])).positionAt
        (around.lexemesBefore ++ (Expr.binary first a b).lexemes).length =
      Position.start.advanceAll (around.before ++ a.text ++ " " ++ first.symbol ++ " " ++ b.text ++
        " ").toList := by
  have cutBefore : cut 0 ((around.before ++ (Expr.binary first a b).text).toList ++ [' ']) =
      around.lexemesBefore ++ (Expr.binary first a b).lexemes := by
    rw [String.toList_append, List.append_assoc, Surrounding.cut_before canonical canonicalPair,
      canonicalPair.cut_text (apart_cons rfl)]
    exact congrArg _ (List.append_nil _)
  have cutAfter := cut_connective (.binary second) (c.text ++ around.after ++ ";").toList
  obtain ⟨mark, marks, sign, visible⟩ := (Connective.binary second).symbol_visible
  have parts : terminated
        (text [.expression (around.fill (.binary first a (.binary second b c)))]).toList =
      (around.before ++ (Expr.binary first a b).text).toList ++ [' '] ++
        mark :: (marks ++ ' ' :: (c.text ++ around.after ++ ";").toList) := by
    rw [terminated_text, text_chain, ← List.cons_append, ← sign]
    simp only [Expr.text, String.toList_append, List.append_assoc]
    rfl
  obtain ⟨lexed, place⟩ := ofSource_of_space parts visible
  rw [← List.cons_append, ← sign, cutAfter, cutBefore] at lexed
  rw [cutBefore] at place
  refine ⟨⟨_, lexed⟩, ?_⟩
  rw [place]
  simp only [Expr.text, String.toList_append, List.append_assoc]
  rfl

/-- Any other comparison behind a comparison is refused at its operator. -/
theorem parse_chained (sumA : a.IsSum) (sumB : b.IsSum) (compares : first.isComparison = true)
    (comparesNext : second.isComparison = true)
    (chained : ¬(first.level = .equality ∧ second.level = .relational))
    (takes : around.Takes (.infixed .equality) .expression)
    (fits : (around.fill (.binary first a (.binary second b c))).nesting < limit) :
    parse limit (text [.expression (around.fill (.binary first a (.binary second b c)))]) =
      .error ⟨.chainedComparison second, Position.start.advanceAll (around.before ++ a.text ++ " " ++
        first.symbol ++ " " ++ b.text ++ " ").toList⟩ := by
  -- The first comparison could stand alone in the open place, so all that comes before the second one is read.
  have canonicalPair : (Expr.binary first a b).IsCanonical :=
    sumA.compared compares (sumB.looseness_le_operand compares) sumB.2
  have canonical := (takes _ canonicalPair (Expr.looseness_of_isComparison compares)).1
  obtain ⟨⟨rest, lexed⟩, place⟩ := ofSource_chain second c canonical canonicalPair
  have refusesPair : Read.Refuses limit ⟨.chainedComparison second, .binary second :: rest⟩
      ((Expr.binary first a b).lexemes ++ .binary second :: rest) (.binary first a b) := by
    rw [Expr.lexemes, List.append_assoc, List.cons_append]
    exact .of_halts (Nat.le_refl _)
      (Read.halts_of_chained compares comparesNext chained sumA.spells sumB.spells)
  have shallow : (around.fill (.binary first a b)).nesting < limit := by
    have part : (Expr.binary first a b).nesting ≤ (Expr.binary first a (.binary second b c)).nesting := by
      simp only [Expr.nesting]
      omega
    exact Nat.lt_of_le_of_lt (Surrounding.nesting_fill part around) fits
  have stops := Read.program_of_refuses (Surrounding.refuses canonical refusesPair) shallow
  rw [← List.append_assoc] at stops
  rw [parse_of_halt lexed stops, place]

/-- Two comparisons in a row, wherever a comparison may stand: a relation behind an equality is its right operand, and
every other second comparison is refused at the first character of its operator. -/
theorem parse_comparisons (sumA : a.IsSum) (sumB : b.IsSum) (sumC : c.IsSum)
    (compares : first.isComparison = true) (comparesNext : second.isComparison = true)
    (takes : around.Takes (.infixed .equality) .expression)
    (fits : (around.fill (.binary first a (.binary second b c))).nesting < limit) :
    parse limit (around.before ++ a.text ++ " " ++ first.symbol ++ " " ++ b.text ++ " " ++
        second.symbol ++ " " ++ c.text ++ around.after ++ ";") =
      if first.level = .equality ∧ second.level = .relational then
        .ok [.expression (around.fill (.binary first a (.binary second b c)))]
      else
        .error ⟨.chainedComparison second, Position.start.advanceAll (around.before ++ a.text ++ " " ++
          first.symbol ++ " " ++ b.text ++ " ").toList⟩ := by
  rw [← text_chain]
  split
  · rename_i levels
    exact parse_relation_after_equality sumA sumB sumC levels.1 levels.2 takes fits
  · rename_i chained
    exact parse_chained sumA sumB compares comparesNext chained takes fits

/-- In the condition of a ternary in parentheses behind a conjunction, a relation behind a relation is refused, and one
behind an equality is not. -/
theorem parse_comparisons_condition :
    parse 3 "x && (1 < a + 2 > (b == c) ? y : 0);" = .error ⟨.chainedComparison .gt, ⟨1, 17, 16⟩⟩ ∧
    parse 3 "x && (1 != a + 2 > (b == c) ? y : 0);" = .ok [.expression (.logic .and (.name "x")
      (.paren (.ternary (.binary .ne (.number 1) (.binary .gt (.binary .add (.name "a") (.number 2))
        (.paren (.binary .eq (.name "b") (.name "c"))))) (.name "y") (.number 0))))] := by
  have sumA : (Expr.number 1).IsSum := ⟨by decide, by decide⟩
  have sumB : (Expr.binary .add (.name "a") (.number 2)).IsSum := ⟨by decide, by decide⟩
  have sumC : (Expr.paren (.binary .eq (.name "b") (.name "c"))).IsSum := ⟨by decide, by decide⟩
  have takes : (Surrounding.rightOf (.logic .and) (.name "x")
      (.grouped (.deciding .here (.name "y") (.number 0)))).Takes (.infixed .equality) .expression := by
    refine .loosen (.rightOf (.loosen (.grouped (.deciding (.loosen .here ?_) ?_ ?_)) ?_) ?_ ?_ ?_) ?_
    all_goals decide
  have parsed {first second : BinaryOp} (compares : first.isComparison = true)
      (comparesNext : second.isComparison = true) :=
    parse_comparisons sumA sumB sumC compares comparesNext takes (Nat.lt_succ_self 2)
  have refused := parsed (show BinaryOp.lt.isComparison = true from rfl)
    (show BinaryOp.gt.isComparison = true from rfl)
  have accepted := parsed (show BinaryOp.ne.isComparison = true from rfl)
    (show BinaryOp.gt.isComparison = true from rfl)
  rw [if_neg (by decide)] at refused
  rw [if_pos (by decide)] at accepted
  constructor
  · refine (congrArg (parse 3) (by decide)).trans (refused.trans ?_)
    exact congrArg Except.error (congrArg (ParseError.mk _) (by decide))
  · exact (congrArg (parse 3) (by decide)).trans accepted

end Program

end Abacus
