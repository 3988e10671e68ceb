import Abacus.Proofs.ReadingRefusal
import Abacus.Proofs.TextScan

set_option autoImplicit false

namespace Abacus

/-- An expression with one place left open, which each constructor puts into one operand of a larger expression. -/
inductive Surrounding where
  | here
  | under (op : UnaryOp) (inner : Surrounding)
  | grouped (inner : Surrounding)
  | leftOf (op : Connective) (inner : Surrounding) (right : Expr)
  | rightOf (op : Connective) (left : Expr) (inner : Surrounding)
  | tested (inner : Surrounding) (set : List Int64)
  | deciding (inner : Surrounding) (yes no : Expr)
  | whenTrue (condition : Expr) (inner : Surrounding) (no : Expr)
  | whenFalse (condition yes : Expr) (inner : Surrounding)
deriving DecidableEq, Repr

theorem Connective.text_join (op : Connective) (left right : Expr) :
    (op.join left right).text = left.text ++ " " ++ op.symbol ++ " " ++ right.text := by
  cases op <;> rfl

namespace Surrounding

def fill (e : Expr) : Surrounding → Expr
  | here => e
  | under op inner => .unary op (inner.fill e)
  | grouped inner => .paren (inner.fill e)
  | leftOf op inner right => op.join (inner.fill e) right
  | rightOf op left inner => op.join left (inner.fill e)
  | tested inner set => .member (inner.fill e) set
  | deciding inner yes no => .ternary (inner.fill e) yes no
  | whenTrue condition inner no => .ternary condition (inner.fill e) no
  | whenFalse condition yes inner => .ternary condition yes (inner.fill e)

def before : Surrounding → String
  | here => ""
  | under op inner => op.symbol ++ inner.before
  | grouped inner => "(" ++ inner.before
  | leftOf _ inner _ => inner.before
  | rightOf op left inner => left.text ++ " " ++ op.symbol ++ " " ++ inner.before
  | tested inner _ => inner.before
  | deciding inner _ _ => inner.before
  | whenTrue condition inner _ => condition.text ++ " ? " ++ inner.before
  | whenFalse condition yes inner => condition.text ++ " ? " ++ yes.text ++ " : " ++ inner.before

def after : Surrounding → String
  | here => ""
  | under _ inner => inner.after
  | grouped inner => inner.after ++ ")"
  | leftOf op inner right => inner.after ++ " " ++ op.symbol ++ " " ++ right.text
  | rightOf _ _ inner => inner.after
  | tested inner set => inner.after ++ " in [" ++ ", ".intercalate (set.map toString) ++ "]"
  | deciding inner yes no => inner.after ++ " ? " ++ yes.text ++ " : " ++ no.text
  | whenTrue _ inner no => inner.after ++ " : " ++ no.text
  | whenFalse _ _ inner => inner.after

/-- The text of the tree in the open place stands between the texts before and after it. -/
theorem text_fill (e : Expr) (around : Surrounding) :
    (around.fill e).text = around.before ++ e.text ++ around.after := by
  induction around with
  | here => simp only [fill, before, after, String.empty_append, String.append_empty]
  | _ =>
      rename_i ih
      simp only [fill, before, after, Connective.text_join, Expr.text, ih, String.append_assoc]

/-- The deeper a tree nests, the deeper do its surroundings. -/
theorem nesting_fill {e other : Expr} (order : e.nesting ≤ other.nesting) (around : Surrounding) :
    (around.fill e).nesting ≤ (around.fill other).nesting := by
  induction around with
  | here => exact order
  | _ =>
      simp only [fill, Expr.nesting_join, Expr.nesting]
      omega

open Lexeme in
def lexemesBefore : Surrounding → List Lexeme
  | here => []
  | under op inner => ofUnary op :: inner.lexemesBefore
  | grouped inner => lparen :: inner.lexemesBefore
  | leftOf _ inner _ => inner.lexemesBefore
  | rightOf op left inner => left.lexemes ++ connective op :: inner.lexemesBefore
  | tested inner _ => inner.lexemesBefore
  | deciding inner _ _ => inner.lexemesBefore
  | whenTrue condition inner _ => condition.lexemes ++ question :: inner.lexemesBefore
  | whenFalse condition yes inner =>
    condition.lexemes ++ question :: yes.lexemes ++ colon :: inner.lexemesBefore

/-- In the open place, every canonical tree that is tight enough for a phrase of the one kind makes a canonical tree
that is tight enough for one of the other kind. -/
def Takes (place whole : Phrase) (around : Surrounding) : Prop :=
  ∀ e : Expr, e.IsCanonical → e.looseness ≤ place.looseness →
    (around.fill e).IsCanonical ∧ (around.fill e).looseness ≤ whole.looseness

namespace Takes

variable {place whole : Phrase} {inner : Surrounding} {op : Connective}
  {left right condition yes no : Expr}

theorem here : Surrounding.here.Takes place place :=
  fun _ canonical tight => ⟨canonical, tight⟩

theorem loosen {loose : Phrase} (takes : inner.Takes place whole)
    (order : whole.looseness ≤ loose.looseness) : inner.Takes place loose :=
  fun e canonical tight => (takes e canonical tight).imp_right fun fits => Nat.le_trans fits order

theorem grouped (takes : inner.Takes place .expression) : (grouped inner).Takes place .atom :=
  fun e canonical tight => ⟨(takes e canonical tight).1, Nat.le_refl _⟩

theorem leftOf (takes : inner.Takes place (.infixed op.level)) (chains : op.level.isComparison = false)
    (canonicalRight : right.IsCanonical) (tightRight : right.looseness ≤ op.level.operand.looseness) :
    (leftOf op inner right).Takes place (.infixed op.level) := by
  intro e canonical tight
  obtain ⟨canonicalLeft, tightLeft⟩ := takes e canonical tight
  exact ⟨(Expr.isCanonical_join chains).mpr ⟨tightLeft, tightRight, canonicalLeft, canonicalRight⟩,
    Nat.le_of_eq (Expr.looseness_join op)⟩

theorem rightOf (takes : inner.Takes place op.level.operand) (chains : op.level.isComparison = false)
    (canonicalLeft : left.IsCanonical) (tightLeft : left.looseness ≤ (Phrase.infixed op.level).looseness) :
    (rightOf op left inner).Takes place (.infixed op.level) := by
  intro e canonical tight
  obtain ⟨canonicalRight, tightRight⟩ := takes e canonical tight
  exact ⟨(Expr.isCanonical_join chains).mpr ⟨tightLeft, tightRight, canonicalLeft, canonicalRight⟩,
    Nat.le_of_eq (Expr.looseness_join op)⟩

theorem deciding (takes : inner.Takes place (.infixed .disjunction)) (canonicalYes : yes.IsCanonical)
    (canonicalNo : no.IsCanonical) : (deciding inner yes no).Takes place .expression := by
  intro e canonical tight
  obtain ⟨canonicalHead, tightHead⟩ := takes e canonical tight
  exact ⟨⟨Nat.lt_succ_of_le tightHead, canonicalHead, canonicalYes, canonicalNo⟩, Nat.le_refl _⟩

theorem whenTrue (takes : inner.Takes place .expression) (canonicalHead : condition.IsCanonical)
    (tightHead : condition.looseness ≤ (Phrase.infixed .disjunction).looseness)
    (canonicalNo : no.IsCanonical) : (whenTrue condition inner no).Takes place .expression :=
  fun e canonical tight => ⟨⟨Nat.lt_succ_of_le tightHead, canonicalHead, (takes e canonical tight).1,
    canonicalNo⟩, Nat.le_refl _⟩

theorem whenFalse (takes : inner.Takes place .expression) (canonicalHead : condition.IsCanonical)
    (tightHead : condition.looseness ≤ (Phrase.infixed .disjunction).looseness)
    (canonicalYes : yes.IsCanonical) : (whenFalse condition yes inner).Takes place .expression :=
  fun e canonical tight => ⟨⟨Nat.lt_succ_of_le tightHead, canonicalHead, canonicalYes,
    (takes e canonical tight).1⟩, Nat.le_refl _⟩

end Takes

variable {around : Surrounding} {e : Expr}

/-- What halts the reader in the open place halts it in the surroundings, once what stands before the place was read. -/
theorem refuses {limit : Nat} {halt : Halt} {input : List Lexeme}
    (canonical : (around.fill e).IsCanonical) (refuses : Read.Refuses limit halt input e) :
    Read.Refuses limit halt (around.lexemesBefore ++ input) (around.fill e) := by
  induction around with
  | here => exact refuses
  | under op inner ih => exact (ih canonical.2).under canonical.1
  | grouped inner ih => exact (ih canonical).grouped
  | leftOf op inner right ih =>
      obtain ⟨tight, canonicalInner, -⟩ := canonical.of_join
      exact (ih canonicalInner).leftOf tight
  | rightOf op left inner ih =>
      simp only [lexemesBefore, List.append_assoc, List.cons_append]
      by_cases compares : op.level.isComparison = true
      · cases op with
        | logic op => cases op <;> cases compares
        | binary op =>
            obtain ⟨tightLeft, tight, canonicalLeft, canonicalInner⟩ :=
              (Expr.isCanonical_comparison compares).mp canonical
            exact (ih canonicalInner).compared tight compares (canonicalLeft.spells tightLeft)
      · have chains : op.level.isComparison = false := Bool.eq_false_iff.mpr compares
        obtain ⟨tightLeft, tight, canonicalLeft, canonicalInner⟩ :=
          (Expr.isCanonical_join chains).mp canonical
        exact (ih canonicalInner).joined tight chains (canonicalLeft.spells tightLeft)
  | tested inner set ih => exact (ih canonical.2.2.2).tested canonical.1
  | deciding inner yes no ih => exact (ih canonical.2.1).deciding (Nat.le_of_lt_succ canonical.1)
  | whenTrue condition inner no ih =>
      have head : Spells (.infixed .disjunction) condition.lexemes condition :=
        canonical.2.1.spells (Nat.le_of_lt_succ canonical.1)
      simp only [lexemesBefore, List.append_assoc, List.cons_append]
      exact (ih canonical.2.2.1).whenTrue head
  | whenFalse condition yes inner ih =>
      have head : Spells (.infixed .disjunction) condition.lexemes condition :=
        canonical.2.1.spells (Nat.le_of_lt_succ canonical.1)
      have branch : Spells .expression yes.lexemes yes := canonical.2.2.1.spells yes.looseness_le
      have halts := (ih canonical.2.2.2).whenFalse head branch
      simp only [lexemesBefore, List.append_assoc, List.cons_append] at halts ⊢
      exact halts

open Lexeme Scan

/-- What stands before a tree and the tree itself begin like the whole expression. -/
theorem text_head (canonical : (around.fill e).IsCanonical) (canonicalHere : e.IsCanonical)
    (rest : List Char) :
    ∃ c more, around.before.toList ++ (e.text.toList ++ rest) = c :: more ∧ c ≠ '=' := by
  obtain ⟨d, others, writtenHere, -⟩ := canonicalHere.text_head
  obtain ⟨c, more, written, other⟩ := canonical.text_head
  rw [text_fill, String.toList_append, String.toList_append, writtenHere] at written
  cases start : around.before.toList ++ d :: others with
  | nil => exact absurd start (List.append_ne_nil_of_right_ne_nil _ (List.cons_ne_nil _ _))
  | cons first begun =>
      rw [start, List.cons_append] at written
      obtain ⟨rfl, -⟩ := List.cons.inj written
      refine ⟨first, begun ++ rest, ?_, other⟩
      rw [writtenHere, ← List.append_assoc, start, List.cons_append]

/-- The text before a tree is cut into the lexemes before it. -/
theorem cut_before (canonical : (around.fill e).IsCanonical) (canonicalHere : e.IsCanonical)
    (rest : List Char) :
    cut 0 (around.before.toList ++ (e.text.toList ++ rest)) =
      around.lexemesBefore ++ cut 0 (e.text.toList ++ rest) := by
  induction around with
  | here => rfl
  | under op inner ih =>
      have inside := ih canonical.2
      obtain ⟨c, more, begun, other⟩ := text_head canonical.2 canonicalHere rest
      simp only [before, String.toList_append, List.append_assoc]
      cases op with
      | neg => exact (cut_sign rfl rfl).trans (congrArg _ inside)
      | not =>
          -- an equals sign would join the mark, but no tree begins with one
          have alone : first '!' (inner.before.toList ++ (e.text.toList ++ rest)) = (.bang, 0) := by
            rw [begun]
            exact followed_alone other
          exact (cut_sign rfl alone).trans (congrArg _ inside)
  | grouped inner ih =>
      simp only [before, String.toList_append, List.append_assoc]
      exact (cut_sign rfl rfl).trans (congrArg _ (ih canonical))
  | leftOf op inner right ih => exact ih canonical.of_join.2.1
  | rightOf op left inner ih =>
      obtain ⟨-, canonicalLeft, canonicalInner⟩ := canonical.of_join
      exact cut_joined op canonicalLeft.cut_text (ih canonicalInner)
  | tested inner set ih => exact ih canonical.2.2.2
  | deciding inner yes no ih => exact ih canonical.2.1
  | whenTrue condition inner no ih =>
      simp only [before, lexemesBefore, String.toList_append, List.append_assoc, List.cons_append]
      rw [cut_question canonical.2.1.cut_text, ih canonical.2.2.1]
  | whenFalse condition yes inner ih =>
      simp only [before, lexemesBefore, String.toList_append, List.append_assoc, List.cons_append]
      rw [cut_question canonical.2.1.cut_text, cut_colon canonical.2.2.1.cut_text, ih canonical.2.2.2]

end Surrounding

end Abacus
