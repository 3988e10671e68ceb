import Abacus.Proofs.NumeralValue
import Abacus.Proofs.ReadingRefusal
import Abacus.Proofs.ScanTiling

set_option autoImplicit false

namespace Abacus

theorem Text.isBlank_of_isHexDigit {c : Char} (digit : isHexDigit c = true) : isBlank c = false :=
  of_isHexDigit digit (by decide +kernel)

theorem Text.isHexDigit_of_isDecimalDigit {c : Char} (digit : isDecimalDigit c = true) : isHexDigit c = true := by
  rw [isHexDigit, hexDigit?_of_decimalDigit? (decimalDigit?_eq_rank digit), Option.isSome_some]

theorem Lexeme.isNameRest_of_isHexDigit {c : Char} (digit : Text.isHexDigit c = true) : isNameRest c = true :=
  Text.of_isHexDigit digit (by decide +kernel)

namespace Scan

open Lexeme

theorem lastMark?_of_layout {text : List Char} (blank : ∀ c ∈ text, Text.isLayout c = true) :
    Text.lastMark? text = none := by
  have none_left : text.filter (fun c => !Text.isBlank c) = [] :=
    List.filter_eq_nil_iff.mpr fun c member => by simp [Text.isBlank_of_isLayout (blank c member)]
  rw [Text.lastMark?, none_left, List.getLast?_nil]

/-- A line that holds a mark and no terminator lacks one. -/
theorem lacksTerminator_of_line {text : List Char} {c : Char} (oneLine : '\n' ∉ text) (member : c ∈ text)
    (visible : Text.isBlank c = false) (unended : ';' ∉ text) : lacksTerminator text = true := by
  refine lacksTerminator_iff.mpr ⟨oneLine, ⟨c, member, visible⟩, fun last => unended ?_⟩
  rw [← lastMark?_eq] at last
  exact (List.mem_filter.mp (List.mem_of_getLast? last)).1

theorem ofChars_layout (place : Position) {layout : List Char} (blank : ∀ c ∈ layout, Text.isLayout c = true)
    (rest : List Char) : ofChars place 0 (layout ++ rest) = ofChars (place.advanceAll layout) 0 rest := by
  induction layout generalizing place with
  | nil => rfl
  | cons c layout ih =>
      obtain ⟨first, others⟩ := List.forall_mem_cons.mp blank
      rw [List.cons_append, ofChars_of_layout first, ih _ others, Position.advanceAll_cons]

/-- The lexeme that covers a text is the token at its start, and the scan goes on behind it. -/
theorem ofChars_of_covers (place : Position) {lexeme : Lexeme} {text after : List Char}
    (covers : lexeme.Covers text after) :
    ofChars place 0 (text ++ after) =
      ⟨⟨lexeme, place⟩ :: (ofChars (place.advanceAll text) 0 after).tokens,
        (ofChars (place.advanceAll text) 0 after).stop⟩ := by
  obtain ⟨c, rest, parts, visible, rfl, rfl⟩ := covers_iff.mp covers
  have whole : text ++ rest.drop (first c rest).2 =
      (c :: rest.take (first c rest).2) ++ rest.drop (first c rest).2 := by
    rw [parts, List.cons_append, List.take_append_drop]
  rw [parts, ofChars_of_visible (Bool.eq_false_iff.mp visible), ofChars_held, List.append_cancel_right whole,
    Position.advanceAll_cons]

end Scan

namespace Literal

open Lexeme

variable {written before source : List Char} {text : String} {n : Nat}

theorem IsNumeral.isNameRest_of_mem (numeral : IsNumeral written text n) : ∀ c ∈ written, isNameRest c = true := by
  cases numeral with
  | decimal filled decimals => exact fun c member => isNameRest_of_digit (decimals c member)
  | hexadecimal marked hexadecimals =>
      refine List.forall_mem_cons.mpr ⟨rfl, List.forall_mem_cons.mpr ⟨?_, fun c member =>
        isNameRest_of_isHexDigit (hexadecimals c member)⟩⟩
      rcases marked with rfl | rfl <;> rfl

/-- A numeral begins with a decimal digit. -/
theorem IsNumeral.head (numeral : IsNumeral written text n) :
    ∃ c rest, written = c :: rest ∧ Text.isDecimalDigit c = true := by
  cases numeral with
  | decimal filled decimals =>
      obtain ⟨c, rest, rfl⟩ := List.exists_cons_of_ne_nil filled
      exact ⟨c, rest, rfl, decimals c List.mem_cons_self⟩
  | hexadecimal => exact ⟨'0', _, rfl, rfl⟩

/-- A numeral covers its text in front of what no word and no number goes on with. -/
theorem IsNumeral.covers (numeral : IsNumeral written text n) {after : List Char} (ends : Ends isNameRest after) :
    (number text).Covers written after := by
  have no {p : Char → Bool} (part : ∀ c, p c = true → isNameRest c = true) : Ends p after := by
    intro c first
    rw [← Bool.not_eq_true]
    intro goesOn
    have stops := ends c first
    rw [part c goesOn] at stops
    cases stops
  cases numeral with
  | decimal filled decimals =>
      refine .decimal filled decimals (no fun _ => isNameRest_of_digit) fun _ => ⟨fun marked => ?_, fun marked => ?_⟩
      · cases ends 'x' marked
      · cases ends 'X' marked
  | hexadecimal marked hexadecimals => exact .hex marked hexadecimals (no fun _ => isNameRest_of_isHexDigit)

/-- A scan sees the numeral in front of a terminator, with layout around both. -/
theorem StandsAlone.terminated_eq (numeral : IsNumeral written text n) (alone : StandsAlone before written source) :
    (∀ c ∈ before, Text.isLayout c = true) ∧ ∃ between after,
      Scan.terminated source = before ++ (written ++ (between ++ ';' :: after)) ∧
        (∀ c ∈ between, Text.isLayout c = true) ∧ ∀ c ∈ after, Text.isLayout c = true := by
  cases alone with
  | @terminated between after blank =>
      obtain ⟨⟨front, middle⟩, behind⟩ := List.forall_mem_append.mp blank |>.imp_left List.forall_mem_append.mp
      refine ⟨front, between, after, ?_, middle, behind⟩
      rw [Scan.terminated_of_lastMark]
      · simp only [List.append_assoc]
      · have last : Text.lastMark? (';' :: after) = some ';' := by
          rw [← List.singleton_append, Scan.lastMark?_append, Scan.lastMark?_of_layout behind]
          rfl
        rw [Scan.lastMark?_append, last]
        rfl
  | @unterminated between blank oneLine =>
      obtain ⟨front, middle⟩ := List.forall_mem_append.mp blank
      obtain ⟨c, rest, parts, digit⟩ := numeral.head
      have absent {mark : Char} (sign : isNameRest mark = false) (outside : mark ∉ before ++ between) :
          mark ∉ before ++ written ++ between := by
        intro member
        rw [List.append_assoc, List.mem_append, List.mem_append] at member
        rcases member with inFront | inside | behind
        · exact outside (List.mem_append_left _ inFront)
        · rw [numeral.isNameRest_of_mem mark inside] at sign
          cases sign
        · exact outside (List.mem_append_right _ behind)
      have unended : ';' ∉ before ++ between := fun member => by cases blank ';' member
      have member : c ∈ before ++ written ++ between := by
        rw [parts]
        simp
      have lacks := Scan.lacksTerminator_of_line (absent rfl oneLine) member
        (Text.isBlank_of_isHexDigit (Text.isHexDigit_of_isDecimalDigit digit)) (absent rfl unended)
      refine ⟨front, between, [], ?_, middle, List.forall_mem_nil _⟩
      rw [Scan.terminated, if_pos lacks]
      simp only [List.append_assoc]

/-- A scan makes one number of a numeral that stands alone, and a terminator. -/
theorem StandsAlone.tokens_eq {source : String} (numeral : IsNumeral written text n)
    (alone : StandsAlone before written source.toList) :
    ∃ place, (Scan.ofSource source).tokens =
      [⟨number text, Position.start.advanceAll before⟩, ⟨.semicolon, place⟩] := by
  obtain ⟨front, between, after, parts, middle, behind⟩ := alone.terminated_eq numeral
  have ends : Ends isNameRest (between ++ ';' :: after) := by
    intro c first
    cases between with
    | nil =>
        cases first
        rfl
    | cons d between =>
        cases first
        rw [← Bool.not_eq_true]
        intro more
        have layout := middle c List.mem_cons_self
        rw [isLayout_of_isNameRest more] at layout
        cases layout
  have stop : Lexeme.semicolon.Covers [';'] after := .sign rfl
  have nothing (place : Position) : (Scan.ofChars place 0 after).tokens = [] := by
    have blank := Scan.ofChars_layout place behind []
    rw [List.append_nil] at blank
    rw [blank]
    rfl
  refine ⟨((Position.start.advanceAll before).advanceAll written).advanceAll between, ?_⟩
  rw [Scan.ofSource, parts, Scan.ofChars_layout _ front, Scan.ofChars_of_covers _ (numeral.covers ends),
    Scan.ofChars_layout _ middle]
  have last := Scan.ofChars_of_covers (((Position.start.advanceAll before).advanceAll written).advanceAll between) stop
  rw [List.singleton_append] at last
  rw [last, nothing]

/-- The numbers among the lexemes of a text are the normal texts of numerals. -/
theorem isNumeral_of_covers {after : List Char} (covers : (number text).Covers written after) :
    ∃ n, IsNumeral written text n := by
  generalize same : number text = lexeme at covers
  cases covers with
  | word =>
      unfold ofWord at same
      split at same
      · cases same
      · split at same <;> cases same
  | hex marked hexadecimal ends =>
      cases same
      exact ⟨_, .hexadecimal marked hexadecimal⟩
  | decimal filled decimals ends unmarked =>
      cases same
      exact ⟨_, .decimal filled decimals⟩
  | pair | lastPair | unknown => cases same
  | joined marks | alone marks =>
      unfold mark? at marks
      split at marks <;> cases marks <;> cases same
  | sign signs =>
      unfold sign? at signs
      split at signs <;> cases signs <;> cases same

theorem isNumeral_of_isScanned (scanned : (number text).IsScanned) : ∃ written n, IsNumeral written text n := by
  obtain ⟨c, rest, visible, cuts⟩ := scanned
  have covers := covers_first rest visible
  rw [CoversStart, cuts] at covers
  exact ⟨_, isNumeral_of_covers covers⟩

end Literal

namespace Read

variable {limit : Nat} {text : String} {value : Int64} {fault : LiteralError}

theorem program_of_value (normal : Literal.IsNormal text) (positive : 1 ≤ limit)
    (success : Literal.read text = .ok value) :
    Read.program limit [.number text, .semicolon] = .ok [.expression (.number value)] := by
  obtain ⟨n, denotes, fits, rfl⟩ := (Literal.read_eq_ok_iff normal).mp success
  have atom : Spells .atom [.number text] (.number (Int64.ofNat n)) := .number ⟨denotes, fits⟩
  have phrase : Spells .expression [.number text] (.number (Int64.ofNat n)) := .loosen atom (Nat.zero_le _)
  have spells : SpellsProgram ([.number text] ++ .semicolon :: []) [.expression (.number (Int64.ofNat n))] :=
    .cons (.expression phrase) .nil
  exact program_of_spells spells (List.forall_mem_singleton.mpr positive)

theorem program_of_fault (positive : 1 ≤ limit) (fails : Literal.read text = .error fault) :
    Read.program limit [.number text, .semicolon] =
      .error ⟨.invalidNumber text, [.number text, .semicolon]⟩ := by
  have halts : Halts limit ⟨.invalidNumber text, [.number text, .semicolon]⟩ 0 [.number text, .semicolon]
      .unary := by
    intro depth _
    rw [outcome_unary, outcome_atom]
    simp only [unaryOp?, fails]
    rfl
  have noExpression : Halts limit _ 0 _ .expression := halts.loosen (by decide)
  rw [program_eq (List.cons_ne_nil _ _), outcome_statement]
  simp only [noExpression 0 positive]
  rfl

end Read

namespace Program

open Literal

/-- Number literals denote the worth of their digits, from the source text to the tree. A numeral that stands alone as a
statement is scanned as one number and read as what it is worth or, if that is too much for a value, refused at its first
character in its normal text; that is the only fault that a number of any source text can have. Whatever stands behind a
hexadecimal mark, reading it comes to its worth or to the first fault from the left. -/
theorem numerals_denote_worth :
    (∀ (written before : List Char) (text : String) (n : Nat) (source : String) (limit : Nat),
      IsNumeral written text n → StandsAlone before written source.toList → 1 ≤ limit →
        (∃ place, (Scan.ofSource source).tokens =
          [⟨.number text, Position.start.advanceAll before⟩, ⟨.semicolon, place⟩]) ∧
        (n < 2 ^ 63 → ∃ value : Int64, value.toInt = n ∧
          parse limit source = .ok [.expression (.number value)]) ∧
        (2 ^ 63 ≤ n → parse limit source =
          .error ⟨.invalidNumber text, Position.start.advanceAll before⟩)) ∧
    (∀ (source text : String), .number text ∈ (Scan.ofSource source).lexemes →
      Literal.read text ≠ .error .invalidDigit) ∧
    ∀ (mark : Char) (digits : List Char) (result : Except LiteralError Int64), mark = 'x' ∨ mark = 'X' →
      (Literal.read (String.ofList ('0' :: mark :: digits)) = result ↔ HexDenotes digits result) := by
  refine ⟨fun written before text n source limit numeral alone positive => ?_, fun source text member => ?_,
    fun mark digits result marked => ?_⟩
  · obtain ⟨place, tokens⟩ := alone.tokens_eq numeral
    have lexemes : (Scan.ofSource source).lexemes = [.number text, .semicolon] := by
      rw [Scan.lexemes, tokens]
      rfl
    have reading := read_of_isNumeral numeral
    refine ⟨⟨place, tokens⟩, fun small => ?_, fun large => ?_⟩
    · rw [if_pos small] at reading
      have normal : IsNormal text := Scan.lexemes_areWritten source (.number text) (by simp [lexemes])
      refine ⟨Int64.ofNat n, Int64.toInt_ofNat_of_lt small, parse_eq_ok_iff_read.mpr ?_⟩
      rw [lexemes]
      exact Read.program_of_value normal positive reading
    · rw [if_neg (Nat.not_lt.mpr large)] at reading
      have halts := Read.program_of_fault positive reading
      have nothing : (Scan.ofSource source).lexemes = [] ++ [.number text, .semicolon] := lexemes
      rw [parse_of_halt nothing halts, List.length_nil, Scan.positionAt, tokens]
      rfl
  · obtain ⟨written, n, numeral⟩ := isNumeral_of_isScanned (Scan.lexemes_areScanned source _ member)
    rw [read_of_isNumeral numeral]
    intro fails
    split at fails <;> cases fails
  · rw [read_hex marked]
    exact readHex_eq_iff

/-- The greatest value with a leading zero, on the second line; the number above it, with no terminator; and a mark
without digits. -/
theorem numerals_denote_worth_limits :
    (∃ value : Int64, value.toInt = 9223372036854775807 ∧
      parse 1 "\n 0x07fffFFFFffffffff;" = .ok [.expression (.number value)]) ∧
    parse 1 " 9223372036854775808" = .error ⟨.invalidNumber "9223372036854775808", ⟨1, 2, 1⟩⟩ ∧
    Literal.read "0x" = .ok 0 := by
  have greatest : IsNumeral ('0' :: 'x' :: "07fffFFFFffffffff".toList) _ (worth 16 "07fffFFFFffffffff".toList) :=
    .hexadecimal (Or.inl rfl) (List.all_eq_true.mp rfl)
  have above : IsNumeral "9223372036854775808".toList _ (worth 10 "9223372036854775808".toList) :=
    .decimal (by decide) (List.all_eq_true.mp rfl)
  have second : StandsAlone ['\n', ' '] ('0' :: 'x' :: "07fffFFFFffffffff".toList)
      (['\n', ' '] ++ '0' :: 'x' :: "07fffFFFFffffffff".toList ++ [] ++ ';' :: []) :=
    .terminated (List.all_eq_true.mp rfl)
  have first : StandsAlone [' '] "9223372036854775808".toList ([' '] ++ "9223372036854775808".toList ++ []) :=
    .unterminated (List.all_eq_true.mp rfl) (by decide)
  have kept := (numerals_denote_worth.1 _ _ _ _ "\n 0x07fffFFFFffffffff;" 1 greatest second
    (Nat.le_refl 1)).2.1 (by decide)
  have refused := (numerals_denote_worth.1 _ _ _ _ " 9223372036854775808" 1 above first
    (Nat.le_refl 1)).2.2 (by decide)
  have bare := (numerals_denote_worth.2.2 'x' [] (.ok 0) (Or.inl rfl)).mpr
    (.value (List.forall_mem_nil _) (by decide) rfl)
  exact ⟨kept, refused, bare⟩

end Program

end Abacus
