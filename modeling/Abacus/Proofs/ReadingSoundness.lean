import Abacus.Grammar
import Abacus.Proofs.LiteralValue
import Abacus.Proofs.ReadingInduction

set_option autoImplicit false

namespace Abacus

/-- Every number among the lexemes is written as a scan writes it. -/
def HasNormalNumbers (input : List Lexeme) : Prop :=
  ∀ text, Lexeme.number text ∈ input → Literal.IsNormal text

theorem HasNormalNumbers.right {first second : List Lexeme}
    (normal : HasNormalNumbers (first ++ second)) : HasNormalNumbers second :=
  fun text member => normal text (List.mem_append_right first member)

theorem HasNormalNumbers.tail {lexeme : Lexeme} {rest : List Lexeme}
    (normal : HasNormalNumbers (lexeme :: rest)) : HasNormalNumbers rest :=
  fun text member => normal text (List.mem_cons_of_mem lexeme member)

namespace Read

variable {limit depth : Nat} {input rest : List Lexeme} {e : Expr}

/-- The lexemes before the rest spell the tree, which nests within the limit from the depth on. -/
def TookPhrase (limit depth : Nat) (phrase : Phrase) (input : List Lexeme) (e : Expr)
    (rest : List Lexeme) : Prop :=
  ∃ taken, input = taken ++ rest ∧ Spells phrase taken e ∧ depth + e.nesting ≤ limit

/-- A phrase was taken; at the level of a comparison it is none itself, or no comparison follows it. -/
def TookTerm (limit depth : Nat) (level : Level) (phrase : Phrase) (input : List Lexeme) (e : Expr)
    (rest : List Lexeme) : Prop :=
  TookPhrase limit depth phrase input e rest ∧
    (level.isComparison = true →
      TookPhrase limit depth (.infixed .additive) input e rest ∨ comparison? rest = none)

namespace TookPhrase

theorem hasNormalNumbers {phrase : Phrase} (took : TookPhrase limit depth phrase input e rest)
    (normal : HasNormalNumbers input) : HasNormalNumbers rest := by
  obtain ⟨taken, rfl, -, -⟩ := took
  exact normal.right

/-- What every phrase of a kind is also, the one taken is. -/
theorem wider {phrase kind : Phrase} (took : TookPhrase limit depth phrase input e rest)
    (widens : ∀ {taken}, Spells phrase taken e → Spells kind taken e) :
    TookPhrase limit depth kind input e rest := by
  obtain ⟨taken, parts, spells, fits⟩ := took
  exact ⟨taken, parts, widens spells, fits⟩

theorem ternary {condition yes no : Expr} {second third : List Lexeme}
    (head : TookPhrase limit depth (.infixed .disjunction) input condition (.question :: second))
    (left : TookPhrase limit (depth + 1) .expression second yes (.colon :: third))
    (right : TookPhrase limit (depth + 1) .expression third no rest) :
    TookPhrase limit depth .expression input (.ternary condition yes no) rest := by
  obtain ⟨first, parts, headSpells, headFits⟩ := head
  obtain ⟨second, rfl, leftSpells, leftFits⟩ := left
  obtain ⟨third, rfl, rightSpells, rightFits⟩ := right
  refine ⟨_, ?_, .ternary headSpells leftSpells rightSpells, ?_⟩
  · simp only [parts, List.append_assoc, List.cons_append]
  · simp only [Expr.nesting]
    omega

theorem member {members : List Lexeme} {set : List Int64}
    (before : TookPhrase limit depth .primary input e
      (.isIn :: (.lbracket :: members ++ .rbracket :: rest)))
    (areNumbers : Lexeme.AreNumbers members set) :
    TookPhrase limit depth .primary input (.member e set) rest := by
  obtain ⟨taken, parts, spells, fits⟩ := before
  refine ⟨_, ?_, .member spells areNumbers, fits⟩
  simp only [parts, List.append_assoc, List.cons_append, List.nil_append]

theorem negated {after : List Lexeme} (inside : TookPhrase limit (depth + 1) .unary after e rest) :
    TookPhrase limit depth .unary (.binary .sub :: after) (.unary .neg e) rest := by
  obtain ⟨taken, rfl, spells, fits⟩ := inside
  refine ⟨_, rfl, .negated spells, ?_⟩
  simp only [Expr.nesting]
  omega

theorem denied {after : List Lexeme} (inside : TookPhrase limit (depth + 1) .unary after e rest) :
    TookPhrase limit depth .unary (.bang :: after) (.unary .not e) rest := by
  obtain ⟨taken, rfl, spells, fits⟩ := inside
  refine ⟨_, rfl, .denied spells, ?_⟩
  simp only [Expr.nesting]
  omega

theorem paren {after : List Lexeme}
    (inside : TookPhrase limit (depth + 1) .expression after e (.rparen :: rest)) :
    TookPhrase limit depth .atom (.lparen :: after) (.paren e) rest := by
  obtain ⟨taken, rfl, spells, fits⟩ := inside
  refine ⟨_, ?_, .paren spells, ?_⟩
  · simp only [List.cons_append, List.append_assoc, List.nil_append]
  · simp only [Expr.nesting]
    omega

end TookPhrase

theorem sign_eq_ok {wanted : Lexeme} {expected : Expected} {mark : Unit}
    (success : (sign wanted expected input).outcome = .ok (mark, rest)) :
    input = wanted :: rest := by
  rw [outcome_sign] at success
  cases input with
  | nil => cases success
  | cons found after =>
      by_cases same : found = wanted
      · simp only [if_pos same, Except.ok.injEq, Prod.mk.injEq, true_and] at success
        rw [same, success]
      · simp only [if_neg same, reduceCtorEq] at success

theorem number_spells {value : Int64} (normal : HasNormalNumbers input)
    (success : (number input).outcome = .ok (value, rest)) :
    ∃ lexeme, input = lexeme :: rest ∧ lexeme.IsNumber value := by
  cases input with
  | nil => cases success
  | cons lexeme after =>
      cases lexeme with
      | number text =>
          cases found : Literal.read text with
          | error error => simp only [number, found, outcome_error, reduceCtorEq] at success
          | ok worth =>
              simp only [number, found, outcome_ok, Except.ok.injEq, Prod.mk.injEq] at success
              obtain ⟨rfl, rfl⟩ := success
              obtain ⟨n, denotes, fits, rfl⟩ :=
                (Literal.read_eq_ok_iff (normal text List.mem_cons_self)).mp found
              exact ⟨.number text, rfl, .intro denotes fits⟩
      | _ => cases success

theorem numbers_spell {values : List Int64} (normal : HasNormalNumbers input)
    (success : (numbers input).outcome = .ok (values, rest)) :
    ∃ taken, input = taken ++ rest ∧ Lexeme.AreNumbers taken values := by
  induction length : input.length using Nat.strongRecOn generalizing input values with
  | ind n ih =>
      rw [outcome_numbers] at success
      simp only [bind_eq_ok_iff, Prod.exists] at success
      obtain ⟨first, after, found, success⟩ := success
      obtain ⟨lexeme, rfl, isNumber⟩ := number_spells normal found
      split at success
      · rename_i later
        simp only [bind_eq_ok_iff, Prod.exists] at success
        obtain ⟨others, left, more, success⟩ := success
        cases success
        have shorter : later.length < n := by
          simp only [List.length_cons] at length
          omega
        obtain ⟨taken, rfl, areNumbers⟩ := ih later.length shorter normal.tail.tail more rfl
        exact ⟨lexeme :: .comma :: taken, rfl, .more isNumber areNumbers⟩
      · cases success
        exact ⟨[lexeme], rfl, .last isNumber⟩

theorem literalSet_spells {values : List Int64} (normal : HasNormalNumbers input)
    (success : (literalSet input).outcome = .ok (values, rest)) :
    ∃ taken, input = .lbracket :: taken ++ .rbracket :: rest ∧ Lexeme.AreNumbers taken values := by
  rw [outcome_literalSet] at success
  simp only [bind_eq_ok_iff, Prod.exists] at success
  obtain ⟨_, inside, opened, found, after, listed, _, left, closed, success⟩ := success
  cases success
  obtain rfl := sign_eq_ok opened
  obtain ⟨taken, rfl, areNumbers⟩ := numbers_spell normal.tail listed
  obtain rfl := sign_eq_ok closed
  exact ⟨taken, rfl, areNumbers⟩

theorem memberships_spell {value : Expr} {after : List Lexeme} (normal : HasNormalNumbers input)
    (before : TookPhrase limit depth .primary input value after)
    (success : membershipsFrom value after = .ok (e, rest)) :
    TookPhrase limit depth .primary input e rest := by
  induction length : after.length using Nat.strongRecOn generalizing value after with
  | ind n ih =>
      rw [membershipsFrom_eq] at success
      split at success
      · rename_i inside
        simp only [bind_eq_ok_iff, Prod.exists] at success
        obtain ⟨set, left, found, success⟩ := success
        have normalInside := (before.hasNormalNumbers normal).tail
        obtain ⟨members, rfl, areNumbers⟩ := literalSet_spells normalInside found
        have shorter : left.length < n := by
          simp only [List.length_cons, List.length_append] at length
          omega
        exact ih left.length shorter (before.member areNumbers) success rfl
      · cases success
        exact before

/-- An operator and its right operand make a longer phrase of what was taken before. -/
theorem TookTerm.join {op : Connective} {left right : Expr} {after : List Lexeme}
    (before : TookTerm limit depth op.level (.infixed op.level) input left (.connective op :: after))
    (operand : TookPhrase limit depth op.level.operand after right rest) :
    TookPhrase limit depth (.infixed op.level) input (op.join left right) rest := by
  obtain ⟨second, rfl, rightSpells, rightFits⟩ := operand
  by_cases compares : op.level.isComparison = true
  · obtain ⟨-, mayCompare⟩ := before
    cases op with
    | logic op => cases op <;> cases compares
    | binary op =>
        have compared : op.isComparison = true := compares
        rcases mayCompare compares with ⟨first, parts, leftSpells, leftFits⟩ | absent
        · refine ⟨first ++ .binary op :: second, ?_, .compared compared leftSpells rightSpells, ?_⟩
          · simp only [parts, List.append_assoc, List.cons_append]
          · simp only [Connective.join, Expr.nesting]
            omega
        · simp only [comparison?, if_pos compared, reduceCtorEq] at absent
  · obtain ⟨⟨first, parts, leftSpells, leftFits⟩, -⟩ := before
    have chains : op.level.isComparison = false := Bool.not_eq_true _ ▸ compares
    refine ⟨first ++ .connective op :: second, ?_, .joined chains leftSpells rightSpells, ?_⟩
    · simp only [parts, List.append_assoc, List.cons_append]
    · rw [Expr.nesting_join]
      omega

def Gives (good : Expr → List Lexeme → Prop) (result : Except Halt (Expr × List Lexeme)) : Prop :=
  ∀ e rest, result = .ok (e, rest) → good e rest

namespace Gives

variable {α : Type} {good : Expr → List Lexeme → Prop}

theorem ok (holds : good e rest) : Gives good (.ok (e, rest)) := by
  rintro _ _ ⟨⟩
  exact holds

theorem error (halt : Halt) : Gives good (.error halt) := nofun

theorem bind {first : Except Halt (α × List Lexeme)}
    {next : α × List Lexeme → Except Halt (Expr × List Lexeme)}
    (tail : ∀ value rest, first = .ok (value, rest) → Gives good (next (value, rest))) :
    Gives good (first >>= next) := by
  intro e rest success
  obtain ⟨⟨value, between⟩, found, success⟩ := bind_eq_ok_iff.mp success
  exact tail value between found e rest success

end Gives

section Readers

variable {level : Level} {after : List Lexeme}

theorem expression_spells (normal : HasNormalNumbers input)
    (condition : depth < limit → Gives (TookTerm limit (depth + 1) .disjunction (.infixed .disjunction) input)
      (infixed limit (depth + 1) .disjunction input).outcome)
    (branch : depth < limit → ∀ after, after.length + 1 < input.length → HasNormalNumbers after →
      Gives (TookPhrase limit (depth + 1 + 1) .expression after) (expression limit (depth + 1) after).outcome) :
    Gives (TookPhrase limit (depth + 1) .expression input) (expression limit depth input).outcome := by
  rw [outcome_expression]
  by_cases room : depth < limit
  · rw [if_pos room]
    refine .bind fun chosen rest found => ?_
    have tookCondition := (condition room chosen rest found).1
    have shorter := length_lt_of_outcome found
    have plain : TookPhrase limit (depth + 1) .expression input chosen rest := tookCondition.wider .plain
    cases rest with
    | nil => exact .ok plain
    | cons lexeme after =>
        cases lexeme with
        | question =>
            refine .bind fun yes rest foundYes => ?_
            refine .bind fun mark left foundMark => ?_
            refine .bind fun no rest foundNo => .ok ?_
            have normalYes := (tookCondition.hasNormalNumbers normal).tail
            have tookYes := branch room after shorter normalYes yes _ foundYes
            have shorterYes := length_lt_of_outcome foundYes
            have shorterMark := length_lt_of_outcome foundMark
            rw [sign_eq_ok foundMark] at tookYes
            have normalNo := (tookYes.hasNormalNumbers normalYes).tail
            rw [List.length_cons] at shorter
            have tookNo := branch room left (by omega) normalNo no rest foundNo
            exact tookCondition.ternary tookYes tookNo
        | _ => exact .ok plain
  · rw [if_neg room]
    exact .error _

theorem infixed_spells
    (first : Gives (TookTerm limit depth level level.operand input) (operand limit depth level input).outcome)
    (links : ∀ value rest, rest.length < input.length →
      TookTerm limit depth level (.infixed level) input value rest →
        Gives (TookTerm limit depth level (.infixed level) input) (linksFrom limit depth level value rest)) :
    Gives (TookTerm limit depth level (.infixed level) input) (infixed limit depth level input).outcome := by
  rw [outcome_infixed]
  refine .bind fun value rest found => ?_
  obtain ⟨took, mayCompare⟩ := first value rest found
  exact links value rest (length_lt_of_outcome found) ⟨took.wider .tighter, mayCompare⟩

theorem joined_spells {op : Connective} {left : Expr} (normal : HasNormalNumbers input)
    (before : TookTerm limit depth op.level (.infixed op.level) input left (.connective op :: after))
    (second : HasNormalNumbers after →
      Gives (TookTerm limit depth op.level op.level.operand after) (operand limit depth op.level after).outcome)
    (links : ∀ right rest, rest.length < after.length →
      TookTerm limit depth op.level (.infixed op.level) input (op.join left right) rest →
        Gives (TookTerm limit depth op.level (.infixed op.level) input)
          (linksFrom limit depth op.level (op.join left right) rest)) :
    Gives (TookTerm limit depth op.level (.infixed op.level) input)
      (linksFrom limit depth op.level left (.connective op :: after)) := by
  rw [linksFrom_eq]
  simp only [if_true]
  refine .bind fun right rest found => ?_
  have normalAfter := (before.1.hasNormalNumbers normal).tail
  have joined := before.join (second normalAfter right rest found).1
  by_cases compares : op.level.isComparison = true
  · simp only [if_pos compares]
    split
    · exact .error _
    · rename_i absent
      exact .ok ⟨joined, fun _ => Or.inr absent⟩
  · simp only [if_neg compares]
    exact links right rest (length_lt_of_outcome found) ⟨joined, fun compare => absurd compare compares⟩

theorem operand_spells
    (tighter : ∀ next, level.tighter? = some next →
      Gives (TookTerm limit depth next (.infixed next) input) (infixed limit depth next input).outcome)
    (tightest : level.tighter? = none →
      Gives (TookPhrase limit depth .unary input) (unary limit depth input).outcome) :
    Gives (TookTerm limit depth level level.operand input) (operand limit depth level input).outcome := by
  rw [outcome_operand]
  intro e rest success
  cases step : level.tighter? with
  | some next =>
      simp only [step] at success
      obtain ⟨took, mayCompare⟩ := tighter next step e rest success
      rw [Level.operand_of_tighter step]
      refine ⟨took, fun compares => ?_⟩
      -- between the equalities and the sums stand the other comparisons
      cases level with
      | equality =>
          cases step
          exact mayCompare rfl
      | relational =>
          cases step
          exact Or.inl took
      | _ => cases compares
  | none =>
      simp only [step] at success
      rw [Level.operand_of_tightest step]
      refine ⟨tightest step e rest success, fun compares => ?_⟩
      cases level <;> cases step
      cases compares

theorem prefixed_spells {op : UnaryOp} (begins : unaryOp? input = some (op, after))
    (inside : depth < limit → Gives (TookPhrase limit (depth + 1) .unary after) (unary limit (depth + 1) after).outcome) :
    Gives (TookPhrase limit depth .unary input) (unary limit depth input).outcome := by
  rw [outcome_unary, begins]
  dsimp only
  by_cases room : depth < limit
  · rw [if_pos room]
    refine .bind fun inner rest found => .ok ?_
    have took := inside room inner rest found
    unfold unaryOp? at begins
    split at begins <;> cases begins
    · exact took.negated
    · exact took.denied
  · rw [if_neg room]
    exact .error _

theorem unary_spells (normal : HasNormalNumbers input)
    (signed : ∀ op after, unaryOp? input = some (op, after) → depth < limit →
      Gives (TookPhrase limit (depth + 1) .unary after) (unary limit (depth + 1) after).outcome)
    (unsigned : unaryOp? input = none →
      Gives (TookPhrase limit depth .atom input) (atom limit depth input).outcome) :
    Gives (TookPhrase limit depth .unary input) (unary limit depth input).outcome := by
  cases begins : unaryOp? input with
  | some found => exact prefixed_spells begins (signed found.1 found.2 begins)
  | none =>
      rw [outcome_unary, begins]
      refine .bind fun value rest found => ?_
      have before := (unsigned begins value rest found).wider .atom
      exact fun e left success => (memberships_spell normal before success).wider .primary

theorem atom_spells (room : depth ≤ limit) (normal : HasNormalNumbers input)
    (inner : ∀ after, input = .lparen :: after →
      Gives (TookPhrase limit (depth + 1) .expression after) (expression limit depth after).outcome) :
    Gives (TookPhrase limit depth .atom input) (atom limit depth input).outcome := by
  rw [outcome_atom]
  split
  · rename_i text rest
    cases found : Literal.read text with
    | error fault => exact .error _
    | ok value =>
        obtain ⟨n, denotes, fits, rfl⟩ :=
          (Literal.read_eq_ok_iff (normal text List.mem_cons_self)).mp found
        exact .ok ⟨[.number text], rfl, .number (.intro denotes fits), room⟩
  · exact .ok ⟨[.name _], rfl, .name, room⟩
  · rename_i rest
    refine .bind fun value after found => ?_
    refine .bind fun mark left foundMark => .ok ?_
    have took := inner rest rfl value after found
    rw [sign_eq_ok foundMark] at took
    exact took.paren
  · exact .error _
  · exact .error _

/-- What a reader of expressions takes is a phrase of its kind. -/
theorem readers_spell (limit : Nat) : EveryReader
    (fun depth input => HasNormalNumbers input →
      Gives (TookPhrase limit (depth + 1) .expression input) (expression limit depth input).outcome)
    (fun depth level input => depth ≤ limit → HasNormalNumbers input →
      Gives (TookTerm limit depth level (.infixed level) input) (infixed limit depth level input).outcome)
    (fun depth level value rest => depth ≤ limit → ∀ input, HasNormalNumbers input →
      TookTerm limit depth level (.infixed level) input value rest →
        Gives (TookTerm limit depth level (.infixed level) input) (linksFrom limit depth level value rest))
    (fun depth level input => depth ≤ limit → HasNormalNumbers input →
      Gives (TookTerm limit depth level level.operand input) (operand limit depth level input).outcome)
    (fun depth input => depth ≤ limit → HasNormalNumbers input →
      Gives (TookPhrase limit depth .unary input) (unary limit depth input).outcome)
    (fun depth input => depth ≤ limit → HasNormalNumbers input →
      Gives (TookPhrase limit depth .atom input) (atom limit depth input).outcome) := by
  apply everyReader limit
  case expression =>
    intro depth input condition branch normal
    exact expression_spells normal (fun room => condition room room normal) branch
  case infixed =>
    intro depth level input first links room normal
    exact infixed_spells (first room normal) fun value rest shorter =>
      links value rest shorter room input normal
  case joined =>
    intro depth op left after second links room input normal before
    exact joined_spells normal before (second room) fun right rest shorter =>
      links right rest shorter room input normal
  case unjoined =>
    intro depth level value rest other _ input _ before
    rw [linksFrom_of_other other]
    exact .ok before
  case operand =>
    intro depth level input tighter tightest room normal
    exact operand_spells (fun next step => tighter next step room normal) fun step =>
      tightest step room normal
  case unary =>
    intro depth input signed unsigned room normal
    refine unary_spells normal (fun op after begins inside => ?_) fun begins => unsigned begins room normal
    obtain ⟨sign, rfl, -⟩ := exists_of_unaryOp? begins
    exact signed op after begins inside inside normal.tail
  case atom =>
    intro depth input inner room normal
    refine atom_spells room normal fun after parts => ?_
    subst parts
    exact inner after rfl normal.tail

end Readers

end Read

end Abacus
