import Abacus.Proofs.ReadingLocality
import Abacus.Proofs.ReadingSoundness
import Abacus.Proofs.ScanLexemes

set_option autoImplicit false

namespace Abacus

def Problem.IsShallow (problem : Problem) : Prop :=
  ∀ depth limit, problem ≠ .tooDeep depth limit

namespace Read

variable {limit depth : Nat} {phrase : Phrase} {input rest : List Lexeme} {e : Expr}

def zero : Lexeme := .number "0"

theorem zero_isNumber : zero.IsNumber 0 :=
  .intro (n := 0) (by decide) (by decide)

theorem zero_isScanned : zero.IsScanned := ⟨'0', [], by decide, by decide⟩

theorem bind_eq_error_iff {ε α β : Type} {first : Except ε α} {next : α → Except ε β} {error : ε} :
    first >>= next = .error error ↔
      first = .error error ∨ ∃ between, first = .ok between ∧ next between = .error error := by
  cases first with
  | error fault => simp only [bind, Except.bind, Except.error.injEq, reduceCtorEq, false_and,
      exists_false, or_false]
  | ok between => simp only [bind, Except.bind, reduceCtorEq, Except.ok.injEq, exists_eq_left',
      false_or]

/-- What was taken of a phrase is taken in front of all other lexemes. -/
theorem TookPhrase.elsewhere (took : TookPhrase limit depth phrase input e rest) :
    ∃ taken, input = taken ++ rest ∧ ∀ other, TookPhrase limit depth phrase (taken ++ other) e other := by
  obtain ⟨taken, rfl, spells, fits⟩ := took
  exact ⟨taken, rfl, fun other => ⟨taken, rfl, spells, fits⟩⟩

theorem TookPhrase.before (took : TookPhrase limit depth phrase input e []) (other : List Lexeme) :
    TookPhrase limit depth phrase (input ++ other) e other := by
  obtain ⟨taken, rfl, elsewhere⟩ := took.elsewhere
  rw [List.append_nil]
  exact elsewhere other

theorem TookPhrase.room (took : TookPhrase limit depth phrase input e rest) : depth ≤ limit := by
  obtain ⟨_, _, _, fits⟩ := took
  omega

theorem TookTerm.elsewhere {level : Level} (took : TookTerm limit depth level phrase input e rest) :
    ∃ taken, input = taken ++ rest ∧ ∀ other : List Lexeme, other.head? = rest.head? →
      TookTerm limit depth level phrase (taken ++ other) e other := by
  obtain ⟨⟨taken, rfl, spells, fits⟩, mayCompare⟩ := took
  refine ⟨taken, rfl, fun other sameHead => ⟨⟨taken, rfl, spells, fits⟩, fun compares => ?_⟩⟩
  rcases mayCompare compares with ⟨first, parts, spellsSum, fitsSum⟩ | absent
  · obtain rfl := List.append_cancel_right parts
    exact Or.inl ⟨taken, rfl, spellsSum, fitsSum⟩
  · exact Or.inr ((comparison?_congr sameHead).trans absent)

theorem spells_zero (phrase : Phrase) : Spells phrase [zero] (.number 0) := by
  have unary : Spells .unary [zero] (.number 0) := .primary (.atom (.number zero_isNumber))
  have multiplicative : Spells (.infixed .multiplicative) [zero] (.number 0) := .tighter unary
  have additive : Spells (.infixed .additive) [zero] (.number 0) := .tighter multiplicative
  have relational : Spells (.infixed .relational) [zero] (.number 0) := .tighter additive
  have equality : Spells (.infixed .equality) [zero] (.number 0) := .tighter relational
  have conjunction : Spells (.infixed .conjunction) [zero] (.number 0) := .tighter equality
  have disjunction : Spells (.infixed .disjunction) [zero] (.number 0) := .tighter conjunction
  cases phrase with
  | expression => exact .plain disjunction
  | infixed level => cases level <;> assumption
  | unary => exact unary
  | primary => exact .atom (.number zero_isNumber)
  | atom => exact .number zero_isNumber

theorem took_zero (room : depth ≤ limit) : TookPhrase limit depth phrase [zero] (.number 0) [] :=
  ⟨[zero], rfl, spells_zero phrase, room⟩

/-- Reading stopped before the rest with a phrase begun: lexemes that are added to those before the rest complete it
to a phrase whose tree nests within the limit from the depth on. -/
def Stuck (limit depth : Nat) (phrase : Phrase) (input rest : List Lexeme) : Prop :=
  ∃ taken added e, input = taken ++ rest ∧ (∀ lexeme ∈ added, lexeme.IsScanned) ∧
    TookPhrase limit depth phrase (taken ++ added) e []

def StuckSet (input rest : List Lexeme) : Prop :=
  ∃ taken added members set, input = taken ++ rest ∧ (∀ lexeme ∈ added, lexeme.IsScanned) ∧
    taken ++ added = .lbracket :: members ++ [.rbracket] ∧ Lexeme.AreNumbers members set

namespace Stuck

theorem missing (room : depth ≤ limit) : Stuck limit depth phrase input input := by
  refine ⟨[], [zero], .number 0, rfl, fun lexeme member => ?_, took_zero room⟩
  rw [List.mem_singleton.mp member]
  exact zero_isScanned

/-- A phrase that is complete needs nothing. -/
theorem of_took (took : TookPhrase limit depth phrase input e rest) :
    Stuck limit depth phrase input rest := by
  obtain ⟨taken, parts, elsewhere⟩ := took.elsewhere
  exact ⟨taken, [], e, parts, fun lexeme member => absurd member List.not_mem_nil, elsewhere []⟩

theorem wider {wide : Phrase} (stuck : Stuck limit depth phrase input rest)
    (widens : ∀ {lexemes e}, Spells phrase lexemes e → Spells wide lexemes e) :
    Stuck limit depth wide input rest := by
  obtain ⟨taken, added, e, parts, scanned, took⟩ := stuck
  exact ⟨taken, added, e, parts, scanned, took.wider widens⟩

/-- What comes after the lexemes that were added, in a phrase around the one that was begun. -/
theorem followed_by {lexemes : List Lexeme} (stuck : Stuck limit depth phrase input rest)
    (more : ∀ lexeme ∈ lexemes, lexeme.IsScanned) :
    ∃ taken added e, input = taken ++ rest ∧ (∀ lexeme ∈ added, lexeme.IsScanned) ∧
      TookPhrase limit depth phrase (taken ++ added) e lexemes := by
  obtain ⟨taken, added, e, parts, scanned, took⟩ := stuck
  refine ⟨taken, added ++ lexemes, e, parts, List.forall_mem_append.mpr ⟨scanned, more⟩, ?_⟩
  rw [← List.append_assoc]
  exact took.before lexemes

theorem prefixed {op : UnaryOp} {after : List Lexeme} (begins : unaryOp? input = some (op, after))
    (inside : Stuck limit (depth + 1) .unary after rest) : Stuck limit depth .unary input rest := by
  obtain ⟨taken, added, e, rfl, scanned, took⟩ := inside
  unfold unaryOp? at begins
  split at begins
  · cases begins
    exact ⟨.binary .sub :: taken, added, _, rfl, scanned, took.negated⟩
  · cases begins
    exact ⟨.bang :: taken, added, _, rfl, scanned, took.denied⟩
  · cases begins

theorem paren {after : List Lexeme} (inside : Stuck limit (depth + 1) .expression after rest) :
    Stuck limit depth .atom (.lparen :: after) rest := by
  have closing : ∀ lexeme ∈ [Lexeme.rparen], lexeme.IsScanned :=
    List.forall_mem_singleton.mpr ⟨')', [], by decide, by decide⟩
  obtain ⟨taken, added, e, rfl, scanned, took⟩ := inside.followed_by closing
  exact ⟨.lparen :: taken, added, _, rfl, scanned, took.paren⟩

section Ternary

variable {condition yes : Expr} {second third : List Lexeme}

/-- The branch of a ternary was begun: it is completed, and the other one is added. -/
theorem ternary_yes
    (head : TookPhrase limit depth (.infixed .disjunction) input condition (.question :: second))
    (left : Stuck limit (depth + 1) .expression second rest) :
    Stuck limit depth .expression input rest := by
  have other : ∀ lexeme ∈ [Lexeme.colon, zero], lexeme.IsScanned :=
    List.forall_mem_cons.mpr ⟨⟨':', [], by decide, by decide⟩,
      List.forall_mem_singleton.mpr zero_isScanned⟩
  obtain ⟨first, rfl, headElsewhere⟩ := head.elsewhere
  obtain ⟨taken, added, yes, rfl, scanned, took⟩ := left.followed_by other
  refine ⟨first ++ .question :: taken, added, .ternary condition yes (.number 0), ?_, scanned, ?_⟩
  · rw [List.append_assoc, List.cons_append]
  · rw [List.append_assoc, List.cons_append]
    exact (headElsewhere _).ternary took (took_zero took.room)

theorem ternary_no
    (head : TookPhrase limit depth (.infixed .disjunction) input condition (.question :: second))
    (left : TookPhrase limit (depth + 1) .expression second yes (.colon :: third))
    (right : Stuck limit (depth + 1) .expression third rest) :
    Stuck limit depth .expression input rest := by
  obtain ⟨first, rfl, headElsewhere⟩ := head.elsewhere
  obtain ⟨second, rfl, leftElsewhere⟩ := left.elsewhere
  obtain ⟨taken, added, no, rfl, scanned, took⟩ := right
  refine ⟨first ++ .question :: (second ++ .colon :: taken), added, .ternary condition yes no, ?_,
    scanned, ?_⟩
  · simp only [List.append_assoc, List.cons_append]
  · simp only [List.append_assoc, List.cons_append]
    exact (headElsewhere _).ternary (leftElsewhere _) took

end Ternary

/-- The right operand of an operator was begun. -/
theorem join {op : Connective} {left : Expr} {after : List Lexeme}
    (before : TookTerm limit depth op.level (.infixed op.level) input left (.connective op :: after))
    (operand : Stuck limit depth op.level.operand after rest) :
    Stuck limit depth (.infixed op.level) input rest := by
  obtain ⟨first, rfl, elsewhere⟩ := before.elsewhere
  obtain ⟨taken, added, right, rfl, scanned, took⟩ := operand
  refine ⟨first ++ .connective op :: taken, added, op.join left right, ?_, scanned, ?_⟩
  · rw [List.append_assoc, List.cons_append]
  · rw [List.append_assoc, List.cons_append]
    exact (elsewhere (.connective op :: (taken ++ added)) rfl).join took

/-- The set of a membership test was begun. -/
theorem member {after : List Lexeme}
    (before : TookPhrase limit depth .primary input e (.isIn :: after)) (set : StuckSet after rest) :
    Stuck limit depth .primary input rest := by
  obtain ⟨first, rfl, elsewhere⟩ := before.elsewhere
  obtain ⟨taken, added, members, set, rfl, scanned, whole, areNumbers⟩ := set
  refine ⟨first ++ .isIn :: taken, added, .member e set, ?_, scanned, ?_⟩
  · rw [List.append_assoc, List.cons_append]
  · rw [List.append_assoc, List.cons_append, whole]
    exact (elsewhere (.isIn :: (.lbracket :: members ++ [.rbracket]))).member areNumbers

end Stuck

theorem sign_halts {wanted : Lexeme} {expected : Expected} {halt : Halt}
    (halts : (sign wanted expected input).outcome = .error halt) : halt.rest = input := by
  rw [outcome_sign] at halts
  cases input with
  | nil =>
      cases halts
      rfl
  | cons found after =>
      by_cases same : found = wanted
      · simp only [if_pos same, reduceCtorEq] at halts
      · simp only [if_neg same, Except.error.injEq] at halts
        rw [← halts]

theorem number_halts {halt : Halt} (halts : (number input).outcome = .error halt) :
    halt.rest = input := by
  cases input with
  | nil =>
      cases halts
      rfl
  | cons lexeme after =>
      cases lexeme with
      | number text =>
          cases found : Literal.read text with
          | ok value => simp only [number, found, outcome_ok, reduceCtorEq] at halts
          | error fault =>
              simp only [number, found, outcome_error, Except.error.injEq] at halts
              rw [← halts]
      | _ =>
          cases halts
          rfl

/-- Numbers halt where a number is missing. -/
theorem numbers_halt {halt : Halt} (normal : HasNormalNumbers input)
    (halts : (numbers input).outcome = .error halt) :
    ∃ taken values, input = taken ++ halt.rest ∧ Lexeme.AreNumbers (taken ++ [zero]) values := by
  induction length : input.length using Nat.strongRecOn generalizing input with
  | ind n ih =>
      rw [outcome_numbers, bind_eq_error_iff] at halts
      simp only [Prod.exists] at halts
      rcases halts with halts | ⟨first, after, found, halts⟩
      · exact ⟨[], [0], (number_halts halts).symm, .last zero_isNumber⟩
      · obtain ⟨lexeme, rfl, isNumber⟩ := number_spells normal found
        split at halts
        · rename_i later
          rw [bind_eq_error_iff] at halts
          rcases halts with halts | ⟨others, -, halts⟩
          · have shorter : later.length < n := by
              simp only [List.length_cons] at length
              omega
            obtain ⟨taken, values, rfl, areNumbers⟩ := ih later.length shorter normal.tail.tail halts rfl
            exact ⟨lexeme :: .comma :: taken, first :: values, rfl, .more isNumber areNumbers⟩
          · cases halts
        · cases halts

theorem literalSet_halts {halt : Halt} (normal : HasNormalNumbers input)
    (halts : (literalSet input).outcome = .error halt) : StuckSet input halt.rest := by
  have opening : Lexeme.lbracket.IsScanned := ⟨'[', [], by decide, by decide⟩
  have closing : Lexeme.rbracket.IsScanned := ⟨']', [], by decide, by decide⟩
  rw [outcome_literalSet, bind_eq_error_iff] at halts
  simp only [bind_eq_error_iff, Prod.exists] at halts
  rcases halts with halts | ⟨_, inside, opened, halts⟩
  · refine ⟨[], [.lbracket, zero, .rbracket], [zero], [0], (sign_halts halts).symm, ?_, rfl,
      .last zero_isNumber⟩
    simp only [List.forall_mem_cons, opening, zero_isScanned, closing, List.not_mem_nil,
      false_implies, implies_true, and_self]
  · obtain rfl := sign_eq_ok opened
    rcases halts with halts | ⟨values, after, found, halts⟩
    · obtain ⟨taken, values, rfl, areNumbers⟩ := numbers_halt normal.tail halts
      refine ⟨.lbracket :: taken, [zero, .rbracket], taken ++ [zero], values, rfl, ?_, ?_, areNumbers⟩
      · simp only [List.forall_mem_cons, zero_isScanned, closing, List.not_mem_nil,
          false_implies, implies_true, and_self]
      · simp only [List.cons_append, List.append_assoc, List.nil_append]
    · obtain ⟨taken, rfl, areNumbers⟩ := numbers_spell normal.tail found
      rcases halts with halts | ⟨_, rest, _, halts⟩
      · rw [sign_halts halts]
        exact ⟨.lbracket :: taken, [.rbracket], taken, values, rfl,
          List.forall_mem_singleton.mpr closing, rfl, areNumbers⟩
      · cases halts

theorem memberships_halt {value : Expr} {after : List Lexeme} {halt : Halt}
    (normal : HasNormalNumbers input) (before : TookPhrase limit depth .primary input value after)
    (halts : membershipsFrom value after = .error halt) :
    Stuck limit depth .primary input halt.rest := by
  induction length : after.length using Nat.strongRecOn generalizing value after with
  | ind n ih =>
      rw [membershipsFrom_eq] at halts
      split at halts
      · rename_i inside
        simp only [bind_eq_error_iff, Prod.exists] at halts
        have normalInside := (before.hasNormalNumbers normal).tail
        rcases halts with halts | ⟨set, left, found, halts⟩
        · exact .member before (literalSet_halts normalInside halts)
        · obtain ⟨members, rfl, areNumbers⟩ := literalSet_spells normalInside found
          have shorter : left.length < n := by
            simp only [List.length_cons, List.length_append] at length
            omega
          exact ih left.length shorter (before.member areNumbers) halts rfl
      · cases halts

/-- Where a reading halts for another reason than depth, if it halts so, what it leaves is as it should be. -/
def HaltsAt {α : Type} (good : List Lexeme → Prop) (result : Except Halt (α × List Lexeme)) : Prop :=
  ∀ halt : Halt, halt.problem.IsShallow → result = .error halt → good halt.rest

namespace HaltsAt

variable {α β : Type} {good : List Lexeme → Prop}

theorem ok (found : α × List Lexeme) : HaltsAt good (.ok found) := nofun

theorem error (problem : Problem) (holds : good rest) :
    HaltsAt good (.error ⟨problem, rest⟩ : Except Halt (α × List Lexeme)) := by
  rintro _ _ ⟨⟩
  exact holds

theorem tooDeep {deep : Nat} :
    HaltsAt good (.error ⟨.tooDeep deep limit, rest⟩ : Except Halt (α × List Lexeme)) := by
  rintro _ shallow ⟨⟩
  exact absurd rfl (shallow deep limit)

theorem mono {other : List Lexeme → Prop} {result : Except Halt (α × List Lexeme)}
    (halts : HaltsAt good result) (implies : ∀ {rest}, good rest → other rest) : HaltsAt other result :=
  fun halt shallow failed => implies (halts halt shallow failed)

theorem bind {first : Except Halt (α × List Lexeme)}
    {next : α × List Lexeme → Except Halt (β × List Lexeme)} (head : HaltsAt good first)
    (tail : ∀ value rest, first = .ok (value, rest) → HaltsAt good (next (value, rest))) :
    HaltsAt good (first >>= next) := by
  intro halt shallow failed
  rcases bind_eq_error_iff.mp failed with failed | ⟨⟨value, between⟩, found, failed⟩
  · exact head halt shallow failed
  · exact tail value between found halt shallow failed

end HaltsAt

section Readers

variable {level : Level} {after : List Lexeme}

theorem expression_halts (normal : HasNormalNumbers input)
    (condition : depth < limit → HaltsAt (Stuck limit (depth + 1) (.infixed .disjunction) input)
      (infixed limit (depth + 1) .disjunction input).outcome)
    (branch : depth < limit → ∀ after, after.length + 1 < input.length → HasNormalNumbers after →
      HaltsAt (Stuck limit (depth + 1 + 1) .expression after)
        (expression limit (depth + 1) after).outcome) :
    HaltsAt (Stuck limit (depth + 1) .expression input) (expression limit depth input).outcome := by
  rw [outcome_expression]
  by_cases room : depth < limit
  · rw [if_pos room]
    refine .bind ((condition room).mono fun stuck => stuck.wider .plain) fun chosen rest found => ?_
    have took := ((readers_spell limit).infixed _ _ input room normal chosen rest found).1
    have shorter := length_lt_of_outcome found
    cases rest with
    | nil => exact .ok _
    | cons lexeme after =>
        cases lexeme with
        | question =>
            have normalYes := (took.hasNormalNumbers normal).tail
            refine .bind ((branch room after shorter normalYes).mono (.ternary_yes took))
              fun yes rest foundYes => ?_
            have tookYes := (readers_spell limit).expression _ after normalYes yes rest foundYes
            refine .bind (fun halt _ failed => ?_) fun mark left foundMark => ?_
            · rw [sign_halts failed]
              exact .ternary_yes took (.of_took tookYes)
            · have shorterYes := length_lt_of_outcome foundYes
              have shorterMark := length_lt_of_outcome foundMark
              rw [sign_eq_ok foundMark] at tookYes
              have normalNo := (tookYes.hasNormalNumbers normalYes).tail
              rw [List.length_cons] at shorter
              have halts := branch room left (by omega) normalNo
              exact .bind (halts.mono (.ternary_no took tookYes)) fun _ _ _ => .ok _
        | _ => exact .ok _
  · rw [if_neg room]
    exact .tooDeep

theorem infixed_halts (room : depth ≤ limit) (normal : HasNormalNumbers input)
    (first : HaltsAt (Stuck limit depth level.operand input) (operand limit depth level input).outcome)
    (links : ∀ value rest, rest.length < input.length →
      TookTerm limit depth level (.infixed level) input value rest →
        HaltsAt (Stuck limit depth (.infixed level) input) (linksFrom limit depth level value rest)) :
    HaltsAt (Stuck limit depth (.infixed level) input) (infixed limit depth level input).outcome := by
  rw [outcome_infixed]
  refine .bind (first.mono fun stuck => stuck.wider .tighter) fun value rest found => ?_
  obtain ⟨took, mayCompare⟩ := (readers_spell limit).operand _ _ input room normal value rest found
  exact links value rest (length_lt_of_outcome found) ⟨took.wider .tighter, mayCompare⟩

theorem joined_halts {op : Connective} {left : Expr} (room : depth ≤ limit) (normal : HasNormalNumbers input)
    (before : TookTerm limit depth op.level (.infixed op.level) input left (.connective op :: after))
    (second : HasNormalNumbers after →
      HaltsAt (Stuck limit depth op.level.operand after) (operand limit depth op.level after).outcome)
    (links : ∀ right rest, rest.length < after.length →
      TookTerm limit depth op.level (.infixed op.level) input (op.join left right) rest →
        HaltsAt (Stuck limit depth (.infixed op.level) input)
          (linksFrom limit depth op.level (op.join left right) rest)) :
    HaltsAt (Stuck limit depth (.infixed op.level) input)
      (linksFrom limit depth op.level left (.connective op :: after)) := by
  rw [linksFrom_eq]
  simp only [if_true]
  have normalAfter := (before.1.hasNormalNumbers normal).tail
  refine .bind ((second normalAfter).mono (.join before)) fun right rest found => ?_
  have took := (readers_spell limit).operand _ _ after room normalAfter right rest found
  have joined := before.join took.1
  by_cases compares : op.level.isComparison = true
  · simp only [if_pos compares]
    split
    · exact .error _ (.of_took joined)
    · exact .ok _
  · simp only [if_neg compares]
    exact links right rest (length_lt_of_outcome found) ⟨joined, fun compare => absurd compare compares⟩

theorem operand_halts
    (tighter : ∀ next, level.tighter? = some next →
      HaltsAt (Stuck limit depth (.infixed next) input) (infixed limit depth next input).outcome)
    (tightest : level.tighter? = none →
      HaltsAt (Stuck limit depth .unary input) (unary limit depth input).outcome) :
    HaltsAt (Stuck limit depth level.operand input) (operand limit depth level input).outcome := by
  rw [outcome_operand]
  cases step : level.tighter? with
  | some next =>
      rw [Level.operand_of_tighter step]
      exact tighter next step
  | none =>
      rw [Level.operand_of_tightest step]
      exact tightest step

theorem prefixed_halts {op : UnaryOp} (begins : unaryOp? input = some (op, after))
    (inside : depth < limit →
      HaltsAt (Stuck limit (depth + 1) .unary after) (unary limit (depth + 1) after).outcome) :
    HaltsAt (Stuck limit depth .unary input) (unary limit depth input).outcome := by
  rw [outcome_unary, begins]
  dsimp only
  by_cases room : depth < limit
  · rw [if_pos room]
    exact .bind ((inside room).mono (.prefixed begins)) fun _ _ _ => .ok _
  · rw [if_neg room]
    exact .tooDeep

theorem unary_halts (room : depth ≤ limit) (normal : HasNormalNumbers input)
    (signed : ∀ op after, unaryOp? input = some (op, after) → depth < limit →
      HaltsAt (Stuck limit (depth + 1) .unary after) (unary limit (depth + 1) after).outcome)
    (unsigned : unaryOp? input = none →
      HaltsAt (Stuck limit depth .atom input) (atom limit depth input).outcome) :
    HaltsAt (Stuck limit depth .unary input) (unary limit depth input).outcome := by
  cases begins : unaryOp? input with
  | some found => exact prefixed_halts begins (signed found.1 found.2 begins)
  | none =>
      rw [outcome_unary, begins]
      refine .bind ((unsigned begins).mono fun stuck => (stuck.wider .atom).wider .primary)
        fun value rest found => ?_
      have took := (readers_spell limit).atom _ input room normal value rest found
      exact fun halt _ failed => (memberships_halt normal (took.wider .atom) failed).wider .primary

theorem atom_halts (room : depth ≤ limit) (normal : HasNormalNumbers input)
    (inner : ∀ after, input = .lparen :: after →
      HaltsAt (Stuck limit (depth + 1) .expression after) (expression limit depth after).outcome) :
    HaltsAt (Stuck limit depth .atom input) (atom limit depth input).outcome := by
  rw [outcome_atom]
  split
  · split
    · exact .ok _
    · exact .error _ (.missing room)
  · exact .ok _
  · rename_i after
    refine .bind ((inner after rfl).mono .paren) fun value rest found => ?_
    have took := (readers_spell limit).expression _ after normal.tail value rest found
    refine .bind (fun halt _ failed => ?_) fun _ _ _ => .ok _
    rw [sign_halts failed]
    exact .paren (.of_took took)
  · exact .error _ (.missing room)
  · exact .error _ (.missing room)

/-- Where a reader of expressions halts for another reason than depth, its phrase has begun. -/
theorem readers_halt (limit : Nat) : EveryReader
    (fun depth input => HasNormalNumbers input →
      HaltsAt (Stuck limit (depth + 1) .expression input) (expression limit depth input).outcome)
    (fun depth level input => depth ≤ limit → HasNormalNumbers input →
      HaltsAt (Stuck limit depth (.infixed level) input) (infixed limit depth level input).outcome)
    (fun depth level value rest => depth ≤ limit → ∀ input, HasNormalNumbers input →
      TookTerm limit depth level (.infixed level) input value rest →
        HaltsAt (Stuck limit depth (.infixed level) input) (linksFrom limit depth level value rest))
    (fun depth level input => depth ≤ limit → HasNormalNumbers input →
      HaltsAt (Stuck limit depth level.operand input) (operand limit depth level input).outcome)
    (fun depth input => depth ≤ limit → HasNormalNumbers input →
      HaltsAt (Stuck limit depth .unary input) (unary limit depth input).outcome)
    (fun depth input => depth ≤ limit → HasNormalNumbers input →
      HaltsAt (Stuck limit depth .atom input) (atom limit depth input).outcome) := by
  apply everyReader limit
  case expression =>
    intro depth input condition branch normal
    exact expression_halts normal (fun room => condition room room normal) branch
  case infixed =>
    intro depth level input first links room normal
    exact infixed_halts room normal (first room normal) fun value rest shorter =>
      links value rest shorter room input normal
  case joined =>
    intro depth op left after second links room input normal before
    exact joined_halts room normal before (second room) fun right rest shorter =>
      links right rest shorter room input normal
  case unjoined =>
    intro depth level value rest other _ input _ _
    rw [linksFrom_of_other other]
    exact .ok _
  case operand =>
    intro depth level input tighter tightest room normal
    exact operand_halts (fun next step => tighter next step room normal) fun step =>
      tightest step room normal
  case unary =>
    intro depth input signed unsigned room normal
    refine unary_halts room normal (fun op after begins inside => ?_) fun begins => unsigned begins room normal
    obtain ⟨sign, rfl, -⟩ := exists_of_unaryOp? begins
    exact signed op after begins inside inside normal.tail
  case atom =>
    intro depth input inner room normal
    refine atom_halts room normal fun after parts => ?_
    subst parts
    exact inner after rfl normal.tail

end Readers

end Read

end Abacus
