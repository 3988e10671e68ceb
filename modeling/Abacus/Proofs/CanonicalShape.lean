import Abacus.Proofs.ScanLexemes
import Mathlib.Data.Nat.Init

set_option autoImplicit false

namespace Abacus

theorem Level.height_bounds (level : Level) : 1 ≤ level.height ∧ level.height ≤ 6 := by
  cases level <;> decide

theorem BinaryOp.leftLimit_le (op : BinaryOp) : op.leftLimit ≤ op.level.height + 2 := by
  cases op <;> decide

namespace Phrase

/-- How loosely the trees that a phrase of the kind spells may bind. -/
def looseness : Phrase → Nat
  | expression => 9
  | infixed level => level.height + 2
  | unary => 2
  | primary => 1
  | atom => 0

theorem looseness_infixed (level : Level) : (infixed level).looseness = level.height + 2 := rfl

theorem looseness_operand (level : Level) : level.operand.looseness = level.height + 1 := by
  cases level <;> rfl

def ofLooseness : Nat → Phrase
  | 0 => atom
  | 1 => primary
  | 2 => unary
  | 3 => infixed .multiplicative
  | 4 => infixed .additive
  | 5 => infixed .relational
  | 6 => infixed .equality
  | 7 => infixed .conjunction
  | 8 => infixed .disjunction
  | _ => expression

theorem ofLooseness_looseness (phrase : Phrase) : ofLooseness phrase.looseness = phrase := by
  cases phrase with
  | infixed level => cases level <;> rfl
  | _ => rfl

end Phrase

namespace Spells

variable {lexemes : List Lexeme} {e : Expr}

theorem next_looseness {n : Nat} (spells : Spells (.ofLooseness n) lexemes e) :
    Spells (.ofLooseness (n + 1)) lexemes e :=
  match n, spells with
  | 0, spells => .atom spells
  | 1, spells => .primary spells
  | 2, spells => .tighter spells
  | 3, spells => .tighter spells
  | 4, spells => .tighter spells
  | 5, spells => .tighter spells
  | 6, spells => .tighter spells
  | 7, spells => .tighter spells
  | 8, spells => .plain spells
  | _ + 9, spells => spells

/-- A phrase is one of every looser kind too. -/
theorem loosen {tight loose : Phrase} (spells : Spells tight lexemes e)
    (order : tight.looseness ≤ loose.looseness) : Spells loose lexemes e := by
  rw [← Phrase.ofLooseness_looseness tight] at spells
  rw [← Phrase.ofLooseness_looseness loose]
  exact Nat.le_induction spells (fun _ _ ih => ih.next_looseness) _ order

end Spells

namespace Expr

variable {left right : Expr}

theorem looseness_join (op : Connective) :
    (op.join left right).looseness = op.level.height + 2 := by
  cases op <;> rfl

theorem looseness_le (e : Expr) : e.looseness ≤ Phrase.expression.looseness := by
  cases e with
  | binary op =>
      have bounds := op.level.height_bounds
      simp only [looseness, Phrase.looseness]
      omega
  | logic op =>
      have bounds := op.level.height_bounds
      simp only [looseness, Phrase.looseness]
      omega
  | _ => simp only [looseness, Phrase.looseness, Nat.zero_le, Nat.reduceLeDiff]

/-- The operands of a comparison are sums, but for the right one of an equality. -/
theorem isCanonical_comparison {op : BinaryOp} (compares : op.isComparison = true) :
    (binary op left right).IsCanonical ↔
      left.looseness ≤ (Phrase.infixed .additive).looseness ∧
        right.looseness ≤ op.level.operand.looseness ∧ left.IsCanonical ∧ right.IsCanonical := by
  simp only [IsCanonical, BinaryOp.leftLimit, compares, if_true, Phrase.looseness_operand,
    Phrase.looseness_infixed, Nat.lt_succ_iff]

/-- The operands of an operator that chains are phrases of its level and of the next tighter kind. -/
theorem isCanonical_join {op : Connective} (chains : op.level.isComparison = false) :
    (op.join left right).IsCanonical ↔
      left.looseness ≤ (Phrase.infixed op.level).looseness ∧
        right.looseness ≤ op.level.operand.looseness ∧ left.IsCanonical ∧ right.IsCanonical := by
  cases op with
  | binary op =>
      have chained : op.isComparison = false := chains
      simp only [Connective.join, IsCanonical, BinaryOp.leftLimit, chained, Bool.false_eq_true,
        if_false, Connective.level, Phrase.looseness_operand, Phrase.looseness_infixed,
        Nat.lt_succ_iff]
  | logic op =>
      simp only [Connective.join, IsCanonical, Connective.level, Phrase.looseness_operand,
        Phrase.looseness_infixed, Nat.lt_succ_iff]

/-- Whatever the operator, its left operand is a phrase of its level, and both operands are canonical. -/
theorem IsCanonical.of_join {op : Connective} (canonical : (op.join left right).IsCanonical) :
    left.looseness ≤ (Phrase.infixed op.level).looseness ∧ left.IsCanonical ∧ right.IsCanonical := by
  cases op with
  | binary op => exact ⟨Nat.le_trans canonical.1 op.leftLimit_le, canonical.2.2⟩
  | logic op => exact ⟨canonical.1, canonical.2.2⟩

end Expr

theorem Lexeme.IsNumber.nonneg {lexeme : Lexeme} {value : Int64} (isNumber : lexeme.IsNumber value) :
    0 ≤ value := by
  obtain ⟨_, fits⟩ := isNumber
  exact Int64.zero_le_ofNat_of_lt (Nat.lt_succ_of_le fits)

theorem Lexeme.AreNumbers.nonneg {lexemes : List Lexeme} {values : List Int64}
    (areNumbers : Lexeme.AreNumbers lexemes values) : values ≠ [] ∧ ∀ value ∈ values, 0 ≤ value := by
  induction areNumbers with
  | last head => exact ⟨List.cons_ne_nil _ _, List.forall_mem_singleton.mpr head.nonneg⟩
  | more head _ ih => exact ⟨List.cons_ne_nil _ _, List.forall_mem_cons.mpr ⟨head.nonneg, ih.2⟩⟩

/-- What a phrase spells binds no looser than the phrase. -/
theorem Spells.looseness_le {phrase : Phrase} {lexemes : List Lexeme} {e : Expr}
    (spells : Spells phrase lexemes e) : e.looseness ≤ phrase.looseness := by
  induction spells with
  | plain => exact Expr.looseness_le _
  | tighter _ ih =>
      rename_i level _ _
      rw [Phrase.looseness_operand] at ih
      exact Nat.le_succ_of_le ih
  | joined => exact Nat.le_of_eq (Expr.looseness_join _)
  | primary _ ih => exact Nat.le_succ_of_le ih
  | atom _ ih => exact Nat.le_succ_of_le ih
  | _ => exact Nat.le_refl _

/-- What a phrase spells is canonical, if the lexemes are written as a scan writes them. -/
theorem Spells.isCanonical {phrase : Phrase} {lexemes : List Lexeme} {e : Expr}
    (spells : Spells phrase lexemes e) (written : ∀ lexeme ∈ lexemes, lexeme.IsWritten) :
    e.IsCanonical := by
  induction spells with
  | plain _ ih => exact ih written
  | tighter _ ih => exact ih written
  | primary _ ih => exact ih written
  | atom _ ih => exact ih written
  | ternary head _ _ ihHead ihLeft ihRight =>
      simp only [List.forall_mem_append, List.forall_mem_cons] at written
      obtain ⟨⟨writtenHead, -, writtenLeft⟩, -, writtenRight⟩ := written
      exact ⟨Nat.lt_succ_of_le head.looseness_le, ihHead writtenHead, ihLeft writtenLeft,
        ihRight writtenRight⟩
  | joined chains before after ihBefore ihAfter =>
      simp only [List.forall_mem_append, List.forall_mem_cons] at written
      rw [Expr.isCanonical_join chains]
      exact ⟨before.looseness_le, after.looseness_le, ihBefore written.1, ihAfter written.2.2⟩
  | compared compares before after ihBefore ihAfter =>
      simp only [List.forall_mem_append, List.forall_mem_cons] at written
      rw [Expr.isCanonical_comparison compares]
      exact ⟨before.looseness_le, after.looseness_le, ihBefore written.1, ihAfter written.2.2⟩
  | negated body ih => exact ⟨body.looseness_le, ih (List.forall_mem_cons.mp written).2⟩
  | denied body ih => exact ⟨body.looseness_le, ih (List.forall_mem_cons.mp written).2⟩
  | member before after ih =>
      simp only [List.forall_mem_append] at written
      obtain ⟨filled, nonneg⟩ := after.nonneg
      exact ⟨before.looseness_le, filled, nonneg, ih written.1.1⟩
  | number isNumber => exact isNumber.nonneg
  | name => exact written _ List.mem_cons_self
  | paren body ih =>
      simp only [List.cons_append, List.forall_mem_append, List.forall_mem_cons] at written
      exact ih written.2.1

namespace Lexeme

def ofValue (value : Int64) : Lexeme := number (toString value)

def ofValues : List Int64 → List Lexeme
  | [] => []
  | [value] => [ofValue value]
  | value :: others => ofValue value :: comma :: ofValues others

theorem toString_of_nonneg {value : Int64} (nonneg : 0 ≤ value) :
    toString value = value.toNatClampNeg.repr := by
  change Int.repr value.toInt = _
  rw [Int64.toInt_eq_toNatClampNeg nonneg]
  rfl

theorem isNumber_ofValue {value : Int64} (nonneg : 0 ≤ value) : (ofValue value).IsNumber value := by
  have small := value.toNatClampNeg_lt
  have fits : value.toNatClampNeg ≤ Literal.maxValue := Nat.le_of_lt_succ small
  have isNumber := IsNumber.intro (Literal.denotes?_repr value.toNatClampNeg) fits
  rw [Int64.ofNat_toNatClampNeg value nonneg] at isNumber
  rw [ofValue, toString_of_nonneg nonneg]
  exact isNumber

theorem areNumbers_ofValues {values : List Int64} (filled : values ≠ [])
    (nonneg : ∀ value ∈ values, 0 ≤ value) : AreNumbers (ofValues values) values := by
  induction values with
  | nil => exact absurd rfl filled
  | cons value others ih =>
      obtain ⟨head, tail⟩ := List.forall_mem_cons.mp nonneg
      cases others with
      | nil => exact .last (isNumber_ofValue head)
      | cons next others => exact .more (isNumber_ofValue head) (ih (List.cons_ne_nil _ _) tail)

def ofUnary : UnaryOp → Lexeme
  | .neg => binary .sub
  | .not => bang

end Lexeme

open Lexeme in
def Expr.lexemes : Expr → List Lexeme
  | number value => [ofValue value]
  | name text => [.name text]
  | unary op operand => ofUnary op :: operand.lexemes
  | paren inner => lparen :: inner.lexemes ++ [rparen]
  | binary op left right => left.lexemes ++ .binary op :: right.lexemes
  | logic op left right => left.lexemes ++ .logic op :: right.lexemes
  | member value set => value.lexemes ++ isIn :: lbracket :: ofValues set ++ [rbracket]
  | ternary condition yes no =>
    condition.lexemes ++ question :: yes.lexemes ++ colon :: no.lexemes

/-- The lexemes of a canonical tree spell it in every phrase that is loose enough. -/
theorem Expr.IsCanonical.spells {e : Expr} (canonical : e.IsCanonical) {phrase : Phrase}
    (loose : e.looseness ≤ phrase.looseness) : Spells phrase e.lexemes e := by
  induction e generalizing phrase with
  | number => exact .loosen (.number (Lexeme.isNumber_ofValue canonical)) loose
  | name => exact .loosen .name loose
  | unary op operand ih =>
      have body := ih canonical.2 (show _ ≤ Phrase.unary.looseness from canonical.1)
      cases op with
      | neg => exact .loosen (.negated body) loose
      | not => exact .loosen (.denied body) loose
  | paren inner ih => exact .loosen (.paren (ih canonical inner.looseness_le)) loose
  | binary op left right ihLeft ihRight =>
      by_cases compares : op.isComparison = true
      · obtain ⟨fitLeft, fitRight, canonicalLeft, canonicalRight⟩ :=
          (isCanonical_comparison compares).mp canonical
        exact .loosen
          (.compared compares (ihLeft canonicalLeft fitLeft) (ihRight canonicalRight fitRight)) loose
      · have chains : (Connective.binary op).level.isComparison = false :=
          Bool.eq_false_iff.mpr compares
        obtain ⟨fitLeft, fitRight, canonicalLeft, canonicalRight⟩ :=
          (isCanonical_join chains).mp canonical
        exact .loosen
          (.joined chains (ihLeft canonicalLeft fitLeft) (ihRight canonicalRight fitRight)) loose
  | logic op left right ihLeft ihRight =>
      have chains : (Connective.logic op).level.isComparison = false := by cases op <;> rfl
      obtain ⟨fitLeft, fitRight, canonicalLeft, canonicalRight⟩ :=
        (isCanonical_join chains).mp canonical
      exact .loosen
        (.joined chains (ihLeft canonicalLeft fitLeft) (ihRight canonicalRight fitRight)) loose
  | member value set ih =>
      obtain ⟨fits, filled, nonneg, canonicalValue⟩ := canonical
      have before := ih canonicalValue (show _ ≤ Phrase.primary.looseness from fits)
      exact .loosen (.member before (Lexeme.areNumbers_ofValues filled nonneg)) loose
  | ternary condition yes no ihCondition ihYes ihNo =>
      obtain ⟨fits, canonicalCondition, canonicalYes, canonicalNo⟩ := canonical
      have head := ihCondition canonicalCondition
        (show _ ≤ (Phrase.infixed .disjunction).looseness from Nat.le_of_lt_succ fits)
      exact .loosen
        (.ternary head (ihYes canonicalYes yes.looseness_le) (ihNo canonicalNo no.looseness_le)) loose

end Abacus
