import Abacus.Proofs.CanonicalShape
import Abacus.Proofs.ReadingCompleteness

set_option autoImplicit false

namespace Abacus

namespace Read

variable {limit depth nesting : Nat} {halt : Halt} {input : List Lexeme}

/-- Looking for a phrase of the kind, the reader halts, so long as there is room for the nesting. -/
def Halts (limit : Nat) (halt : Halt) (nesting : Nat) (input : List Lexeme) : Phrase → Prop
  | .expression => ∀ depth, depth + 1 + nesting ≤ limit →
      (expression limit depth input).outcome = .error halt
  | .infixed level => ∀ depth, depth + nesting ≤ limit →
      (infixed limit depth level input).outcome = .error halt
  | _ => ∀ depth, depth + nesting ≤ limit → (unary limit depth input).outcome = .error halt

namespace Halts

theorem mono {phrase : Phrase} {more : Nat} (halts : Halts limit halt nesting input phrase)
    (order : nesting ≤ more) : Halts limit halt more input phrase := by
  cases phrase <;> exact fun depth fits => halts depth (by omega)

theorem operand {level : Level} (halts : Halts limit halt nesting input level.operand)
    (fits : depth + nesting ≤ limit) : (operand limit depth level input).outcome = .error halt := by
  rw [outcome_operand]
  cases level <;> exact halts depth fits

theorem tighter {level : Level} (halts : Halts limit halt nesting input level.operand) :
    Halts limit halt nesting input (.infixed level) := by
  intro depth fits
  rw [outcome_infixed, halts.operand fits]
  rfl

theorem plain (halts : Halts limit halt nesting input (.infixed .disjunction)) :
    Halts limit halt nesting input .expression := by
  intro depth fits
  rw [outcome_expression, if_pos (by omega), halts (depth + 1) fits]
  rfl

theorem next_looseness {n : Nat} (halts : Halts limit halt nesting input (.ofLooseness n)) :
    Halts limit halt nesting input (.ofLooseness (n + 1)) :=
  match n, halts with
  | 0, halts => halts
  | 1, halts => halts
  | 2, halts => tighter halts
  | 3, halts => tighter halts
  | 4, halts => tighter halts
  | 5, halts => tighter halts
  | 6, halts => tighter halts
  | 7, halts => tighter halts
  | 8, halts => plain halts
  | _ + 9, halts => halts

/-- The reader of a looser phrase asks for the tighter one first. -/
theorem loosen {tight loose : Phrase} (halts : Halts limit halt nesting input tight)
    (order : tight.looseness ≤ loose.looseness) : Halts limit halt nesting input loose := by
  rw [← Phrase.ofLooseness_looseness tight] at halts
  rw [← Phrase.ofLooseness_looseness loose]
  exact Nat.le_induction halts (fun _ _ ih => ih.next_looseness) _ order

end Halts

/-- Wherever the tree may stand, the reader halts on the input instead. -/
def Refuses (limit : Nat) (halt : Halt) (input : List Lexeme) (e : Expr) : Prop :=
  ∀ phrase : Phrase, e.looseness ≤ phrase.looseness → Halts limit halt e.nesting input phrase

namespace Refuses

variable {e left right condition yes no : Expr} {first second : List Lexeme}

theorem of_halts {phrase : Phrase} (tight : phrase.looseness ≤ e.looseness)
    (halts : Halts limit halt e.nesting input phrase) : Refuses limit halt input e :=
  fun _ order => halts.loosen (Nat.le_trans tight order)

theorem infixed_looseness_le (op : Connective) :
    (Phrase.infixed op.level).looseness ≤ (op.join left right).looseness :=
  Nat.le_of_eq (Expr.looseness_join op).symm

theorem under {op : UnaryOp} (refuses : Refuses limit halt input e)
    (tight : e.looseness ≤ Phrase.unary.looseness) :
    Refuses limit halt (.ofUnary op :: input) (.unary op e) := by
  have begins : unaryOp? (.ofUnary op :: input) = some (op, input) := by cases op <;> rfl
  refine of_halts (Nat.le_refl Phrase.unary.looseness) fun depth fits => ?_
  simp only [Expr.nesting] at fits
  have inner := refuses .unary tight (depth + 1) (by omega)
  have room : depth < limit := by omega
  rw [outcome_unary, begins]
  simp only [if_pos room, inner, bind, Except.bind]

theorem grouped (refuses : Refuses limit halt input e) :
    Refuses limit halt (.lparen :: input) (.paren e) := by
  refine of_halts (Nat.le_refl Phrase.atom.looseness) fun depth fits => ?_
  simp only [Expr.nesting] at fits
  have inner := refuses .expression e.looseness_le depth (by omega)
  rw [outcome_unary, outcome_atom]
  simp only [unaryOp?, inner, bind, Except.bind]

theorem leftOf {op : Connective} (refuses : Refuses limit halt input left)
    (tight : left.looseness ≤ (Phrase.infixed op.level).looseness) :
    Refuses limit halt input (op.join left right) := by
  refine of_halts (infixed_looseness_le op) ((refuses _ tight).mono ?_)
  rw [Expr.nesting_join]
  exact Nat.le_max_left _ _

theorem joined {op : Connective} (refuses : Refuses limit halt input right)
    (tight : right.looseness ≤ op.level.operand.looseness) (chains : op.level.isComparison = false)
    (before : Spells (.infixed op.level) first left) :
    Refuses limit halt (first ++ .connective op :: input) (op.join left right) := by
  refine of_halts (infixed_looseness_le op) fun depth fits => ?_
  rw [Expr.nesting_join] at fits
  have halts : (operand limit depth op.level input).outcome = .error halt :=
    (refuses _ tight).operand (by omega)
  rw [(completeness before).chained_operand chains (by omega), linksFrom_eq]
  simp only [if_true, halts, bind, Except.bind]

theorem compared {op : BinaryOp} (refuses : Refuses limit halt input right)
    (tight : right.looseness ≤ op.level.operand.looseness) (compares : op.isComparison = true)
    (before : Spells (.infixed .additive) first left) :
    Refuses limit halt (first ++ .binary op :: input) (.binary op left right) := by
  refine of_halts (Nat.le_refl (Phrase.infixed op.level).looseness) fun depth fits => ?_
  simp only [Expr.nesting] at fits
  have readBefore : (operand limit depth op.level
        (first ++ .connective (.binary op) :: input)).outcome =
      .ok (left, .connective (.binary op) :: input) :=
    (completeness before).additive_operand compares (by omega)
  have halts : (operand limit depth op.level input).outcome = .error halt :=
    (refuses _ tight).operand (by omega)
  rw [outcome_infixed, readBefore]
  simp only [bind, Except.bind]
  rw [linksFrom_eq]
  simp only [Connective.level, if_true, halts, bind, Except.bind]

theorem tested {set : List Int64} (refuses : Refuses limit halt input e)
    (tight : e.looseness ≤ Phrase.primary.looseness) : Refuses limit halt input (.member e set) :=
  of_halts (Nat.le_refl Phrase.primary.looseness) (refuses _ tight)

theorem deciding (refuses : Refuses limit halt input condition)
    (tight : condition.looseness ≤ (Phrase.infixed .disjunction).looseness) :
    Refuses limit halt input (.ternary condition yes no) := by
  refine of_halts (Nat.le_refl Phrase.expression.looseness) ?_
  exact (refuses _ tight).plain.mono (Nat.le_max_left _ _)

theorem whenTrue (refuses : Refuses limit halt input yes)
    (head : Spells (.infixed .disjunction) first condition) :
    Refuses limit halt (first ++ .question :: input) (.ternary condition yes no) := by
  refine of_halts (Nat.le_refl Phrase.expression.looseness) fun depth fits => ?_
  simp only [Expr.nesting] at fits
  have readHead : (infixed limit (depth + 1) .disjunction (first ++ .question :: input)).outcome =
      .ok (condition, .question :: input) :=
    (completeness head).infixed_ends (by omega) (Phrase.endsBefore_cons.mpr rfl)
  have halts := refuses .expression yes.looseness_le (depth + 1) (by omega)
  rw [outcome_expression, if_pos (by omega), readHead]
  simp only [bind, Except.bind, halts]

theorem whenFalse (refuses : Refuses limit halt input no)
    (head : Spells (.infixed .disjunction) first condition) (branch : Spells .expression second yes) :
    Refuses limit halt (first ++ .question :: second ++ .colon :: input)
      (.ternary condition yes no) := by
  refine of_halts (Nat.le_refl Phrase.expression.looseness) fun depth fits => ?_
  simp only [Expr.nesting] at fits
  have readHead : (infixed limit (depth + 1) .disjunction
        (first ++ .question :: (second ++ .colon :: input))).outcome =
      .ok (condition, .question :: (second ++ .colon :: input)) :=
    (completeness head).infixed_ends (by omega) (Phrase.endsBefore_cons.mpr rfl)
  have readBranch : (expression limit (depth + 1) (second ++ .colon :: input)).outcome =
      .ok (yes, .colon :: input) :=
    completeness branch (depth + 1) _ (by omega) (Phrase.endsBefore_cons.mpr rfl)
  have halts := refuses .expression no.looseness_le (depth + 1) (by omega)
  rw [List.append_assoc, List.cons_append, outcome_expression, if_pos (by omega), readHead]
  simp only [bind, Except.bind, readBranch, outcome_sign_self, halts]

end Refuses

end Read

end Abacus
