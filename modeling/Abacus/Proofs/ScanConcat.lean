import Abacus.Proofs.ProgramGrammar
import Abacus.Proofs.TextScan

set_option autoImplicit false

namespace Abacus

def Text.lastLine (text : List Char) : List Char :=
  (text.reverse.takeWhile (· != '\n')).reverse

theorem Text.lastLine_newline (text : List Char) : lastLine (text ++ ['\n']) = [] := by
  rw [lastLine, List.reverse_append]
  rfl

theorem Text.lastLine_concat {c : Char} (inside : c ≠ '\n') (text : List Char) :
    lastLine (text ++ [c]) = lastLine text ++ [c] := by
  rw [lastLine, List.reverse_append, List.reverse_singleton, List.singleton_append,
    List.takeWhile_cons, if_pos (bne_iff_ne.mpr inside), List.reverse_cons]
  rfl

namespace Position

/-- A place of a text when another text stands before it: the lines and the characters of the other text come first,
and its last line is the beginning of the first line. -/
def behind (text : List Char) (place : Position) : Position where
  line := place.line + text.count '\n'
  column := if place.line = 1 then place.column + (Text.lastLine text).length else place.column
  offset := place.offset + text.length

theorem advance_behind (text : List Char) {place : Position} (c : Char) (counted : 1 ≤ place.line) :
    (place.behind text).advance c = (place.advance c).behind text := by
  by_cases newline : c = '\n'
  · have later : place.line + 1 ≠ 1 := by omega
    simp only [advance, behind, if_pos newline, if_neg later, mk.injEq, true_and]
    omega
  · simp only [advance, behind, if_neg newline, mk.injEq, true_and]
    constructor
    · split <;> omega
    · omega

/-- The first place behind a text is the place that the text leads to. -/
theorem behind_start (text : List Char) : start.behind text = start.advanceAll text := by
  -- The last line grows at its end, so the induction is on the text from its end.
  have mirrored (reversed : List Char) :
      start.behind reversed.reverse = start.advanceAll reversed.reverse := by
    induction reversed with
    | nil => rfl
    | cons c reversed ih =>
        rw [List.reverse_cons, advanceAll_append, ← ih, advanceAll_cons, advanceAll_nil]
        by_cases newline : c = '\n'
        · subst newline
          simp only [behind, start, advance, if_true, Text.lastLine_newline, List.count_append,
            List.count_singleton_self, List.length_append, List.length_nil, List.length_singleton,
            mk.injEq, true_and]
          omega
        · simp only [behind, start, advance, if_true, if_neg newline, Text.lastLine_concat newline,
            List.count_append, List.count_singleton, beq_eq_false_iff_ne.mpr newline,
            Bool.false_eq_true, if_false, List.length_append, List.length_singleton, mk.injEq]
          omega
  have found := mirrored text.reverse
  rwa [List.reverse_reverse] at found

theorem line_advance (place : Position) (c : Char) : place.line ≤ (place.advance c).line := by
  unfold advance
  split
  · exact Nat.le_succ _
  · exact Nat.le_refl _

end Position

namespace Scan

def append (first second : Scan) : Scan := ⟨first.tokens ++ second.tokens, second.stop⟩

/-- A scan of a text when another text stands before it. -/
def behind (text : List Char) (scan : Scan) : Scan where
  tokens := scan.tokens.map fun token => ⟨token.lexeme, token.position.behind text⟩
  stop := scan.stop.behind text

theorem ofChars_of_layout {place : Position} {c : Char} (layout : Text.isLayout c = true)
    (rest : List Char) : ofChars place 0 (c :: rest) = ofChars (place.advance c) 0 rest := by
  rw [ofChars, if_pos layout]

theorem ofChars_of_visible {place : Position} {c : Char} (visible : ¬Text.isLayout c = true)
    (rest : List Char) :
    ofChars place 0 (c :: rest) =
      ⟨⟨(Lexeme.first c rest).1, place⟩ ::
          (ofChars (place.advance c) (Lexeme.first c rest).2 rest).tokens,
        (ofChars (place.advance c) (Lexeme.first c rest).2 rest).stop⟩ := by
  rw [ofChars, if_neg visible]

theorem ofChars_behind (before : List Char) {place : Position} (counted : 1 ≤ place.line) (held : Nat)
    (text : List Char) : ofChars (place.behind before) held text = (ofChars place held text).behind before := by
  induction text generalizing place held with
  | nil => cases held <;> rfl
  | cons c rest ih =>
      have advanced := Position.advance_behind before c counted
      have countedNext := Nat.le_trans counted (place.line_advance c)
      cases held with
      | succ held =>
          simp only [ofChars, advanced]
          exact ih countedNext held
      | zero =>
          by_cases layout : Text.isLayout c = true
          · rw [ofChars_of_layout layout, ofChars_of_layout layout, advanced]
            exact ih countedNext 0
          · rw [ofChars_of_visible layout, ofChars_of_visible layout, advanced, ih countedNext]
            rfl

end Scan

namespace Lexeme

theorem takeWhile_of_short {p : Char → Bool} {text : List Char} (more : List Char)
    (short : (text.takeWhile p).length < text.length) : (text ++ more).takeWhile p = text.takeWhile p := by
  rw [List.takeWhile_append, if_neg (Nat.ne_of_lt short)]

theorem ofDigits_of_short {c : Char} {rest : List Char} (more : List Char)
    (short : (ofDigits c rest).2 < rest.length) : ofDigits c (rest ++ more) = ofDigits c rest := by
  have filled : rest ≠ [] := List.ne_nil_of_length_pos (Nat.zero_lt_of_lt short)
  have begins {mark : Char} {after : List Char} (marked : rest ++ more = mark :: after) :
      ∃ digits, rest = mark :: digits := by
    obtain ⟨d, others, rfl⟩ := List.exists_cons_of_ne_nil filled
    exact ⟨others, congrArg (· :: others) (List.cons.inj marked).1⟩
  unfold ofDigits at short ⊢
  split at short
  · simp only [List.length_cons, Nat.add_lt_add_iff_right] at short
    simp only [List.cons_append]
    rw [takeWhile_of_short more short]
  · simp only [List.length_cons, Nat.add_lt_add_iff_right] at short
    simp only [List.cons_append]
    rw [takeWhile_of_short more short]
  · rename_i noSmall noCapital
    split
    · rename_i marked
      obtain ⟨digits, same⟩ := begins marked
      exact (noSmall digits rfl same).elim
    · rename_i marked
      obtain ⟨digits, same⟩ := begins marked
      exact (noCapital digits rfl same).elim
    · rw [takeWhile_of_short more short]

theorem followed_append (joined alone : Lexeme) (d : Char) (rest more : List Char) :
    followed joined alone (d :: (rest ++ more)) = followed joined alone (d :: rest) := by
  by_cases same : d = '='
  · subst same
    rfl
  · rw [followed_alone same, followed_alone same]

/-- A lexeme that ends before the text does is cut alike in front of everything. -/
theorem first_of_short {c : Char} {rest : List Char} (more : List Char)
    (short : (first c rest).2 < rest.length) : first c (rest ++ more) = first c rest := by
  by_cases start : isNameStart c = true
  · rw [first_word start] at short ⊢
    rw [first_word start, takeWhile_of_short more short]
  · by_cases digit : Text.isDecimalDigit c = true
    · rw [first_digit digit] at short ⊢
      rw [first_digit digit, ofDigits_of_short more short]
    · have filled : rest ≠ [] := List.ne_nil_of_length_pos (Nat.zero_lt_of_lt short)
      obtain ⟨d, rest, rfl⟩ := List.exists_cons_of_ne_nil filled
      unfold first
      rw [if_neg start, if_neg start, if_neg digit, if_neg digit, List.cons_append]
      split <;> first | rfl | exact followed_append _ _ _ _ _

theorem length_takeWhile_lt {p : Char → Bool} {text : List Char} {c : Char} (member : c ∈ text)
    (ends : p c = false) : (text.takeWhile p).length < text.length := by
  refine Nat.lt_of_le_of_ne (List.takeWhile_prefix p).length_le fun whole => ?_
  have taken := (List.takeWhile_prefix p).eq_of_length whole
  have goesOn := List.takeWhile_eq_self_iff.mp taken c member
  rw [ends] at goesOn
  cases goesOn

theorem ofDigits_of_space {c : Char} {rest : List Char} (spaced : ' ' ∈ rest) :
    (ofDigits c rest).2 < rest.length := by
  have inside {mark : Char} {digits : List Char} (other : ' ' ≠ mark) (spaced : ' ' ∈ mark :: digits) :
      (digits.takeWhile Text.isHexDigit).length + 1 < (mark :: digits).length :=
    Nat.succ_lt_succ (length_takeWhile_lt (List.mem_of_ne_of_mem other spaced) rfl)
  unfold ofDigits
  split
  · exact inside (by decide) spaced
  · exact inside (by decide) spaced
  · exact length_takeWhile_lt spaced rfl

theorem followed_of_space {joined alone : Lexeme} {rest : List Char} (spaced : ' ' ∈ rest) :
    (followed joined alone rest).2 < rest.length := by
  unfold followed
  split
  · have after := List.mem_of_ne_of_mem (by decide) spaced
    exact Nat.succ_lt_succ (List.length_pos_of_mem after)
  · exact List.length_pos_of_mem spaced

/-- A lexeme ends before the next space, but for the two signs that take any character with them. -/
theorem first_of_space {c : Char} {rest : List Char} (noAmpersand : c ≠ '&') (noBar : c ≠ '|')
    (spaced : ' ' ∈ rest) : (first c rest).2 < rest.length := by
  have filled : 0 < rest.length := List.length_pos_of_mem spaced
  unfold first
  split
  · exact length_takeWhile_lt spaced rfl
  · split
    · exact ofDigits_of_space spaced
    · split <;> first | exact filled | exact followed_of_space spaced | contradiction

/-- Only the sign of a terminator is cut as one. -/
theorem eq_of_first_eq_semicolon {c : Char} {rest : List Char}
    (found : (first c rest).1 = .semicolon) : c = ';' := by
  unfold first at found
  split at found
  · dsimp only [ofWord] at found
    split at found
    · cases found
    · split at found <;> cases found
  · split at found
    · unfold ofDigits at found
      split at found <;> cases found
    · split at found <;> first | rfl | cases found | (unfold followed at found; split at found <;> cases found)

end Lexeme

namespace Scan

open Lexeme

theorem cut_of_length_le {held : Nat} {text : List Char} (all : text.length ≤ held) :
    cut held text = [] := by
  rw [cut_held, List.drop_eq_nil_of_le all]
  rfl

/-- Where the lexemes end a statement, the first one is cut alike in front of everything, and so are the others. -/
theorem first_of_areTerminated {c : Char} {rest : List Char}
    (ended : AreTerminated ((first c rest).1 :: cut (first c rest).2 rest)) :
    (first c rest).2 ≤ rest.length ∧ AreTerminated (cut (first c rest).2 rest) ∧
      ∀ more, first c (rest ++ more) = first c rest := by
  by_cases last : cut (first c rest).2 rest = []
  · rw [last] at ended ⊢
    have stops : (first c rest).1 = .semicolon := by
      rcases ended with empty | ⟨body, parts⟩
      · cases empty
      · have alone := congrArg List.getLast? parts
        rw [List.getLast?_singleton, List.getLast?_concat] at alone
        exact Option.some.inj alone
    obtain rfl := eq_of_first_eq_semicolon stops
    exact ⟨Nat.zero_le _, Or.inl rfl, fun more => rfl⟩
  · have short : (first c rest).2 < rest.length :=
      Nat.lt_of_not_le fun all => last (cut_of_length_le all)
    refine ⟨Nat.le_of_lt short, ?_, fun more => first_of_short more short⟩
    rcases ended with empty | ⟨body, parts⟩
    · cases empty
    · cases body with
      | nil => exact absurd (List.cons.inj parts).2 last
      | cons lexeme body => exact Or.inr ⟨body, (List.cons.inj parts).2⟩

/-- The lexemes of the text, the first `held` characters of which belong to the lexeme before it, end within the text
and are cut alike in front of everything. -/
def IsClosed : Nat → List Char → Prop
  | held, [] => held = 0
  | held + 1, _ :: rest => IsClosed held rest
  | 0, c :: rest =>
    if Text.isLayout c then IsClosed 0 rest
    else (∀ more, first c (rest ++ more) = first c rest) ∧ IsClosed (first c rest).2 rest

/-- A closed text is scanned by itself, and the text after it from the place where it ends. -/
theorem ofChars_append {place : Position} {held : Nat} {first second : List Char}
    (closed : IsClosed held first) :
    ofChars place held (first ++ second) =
      (ofChars place held first).append (ofChars (place.advanceAll first) 0 second) := by
  induction first generalizing place held with
  | nil =>
      cases held with
      | succ held => cases closed
      | zero => rfl
  | cons c rest ih =>
      cases held with
      | succ held => exact ih closed
      | zero =>
          rw [List.cons_append, Position.advanceAll_cons]
          unfold IsClosed at closed
          by_cases layout : Text.isLayout c = true
          · rw [if_pos layout] at closed
            rw [ofChars_of_layout layout, ofChars_of_layout layout]
            exact ih closed
          · rw [if_neg layout] at closed
            obtain ⟨same, closedRest⟩ := closed
            rw [ofChars_of_visible layout, ofChars_of_visible layout, same, ih closedRest]
            rfl

/-- A text whose lexemes end a statement is closed. -/
theorem isClosed_of_areTerminated {held : Nat} {text : List Char} (within : held ≤ text.length)
    (ended : AreTerminated (cut held text)) : IsClosed held text := by
  induction text generalizing held with
  | nil =>
      obtain rfl := Nat.le_zero.mp within
      rfl
  | cons c rest ih =>
      cases held with
      | succ held => exact ih (Nat.le_of_succ_le_succ within) ended
      | zero =>
          unfold IsClosed
          unfold cut at ended
          by_cases layout : Text.isLayout c = true
          · rw [if_pos layout] at ended ⊢
            exact ih (Nat.zero_le _) ended
          · rw [if_neg layout] at ended ⊢
            obtain ⟨inside, endedRest, same⟩ := first_of_areTerminated ended
            exact ⟨same, ih inside endedRest⟩

/-- A text that ends in a space is closed. -/
theorem isClosed_of_space {held : Nat} {text : List Char} (within : held ≤ (text ++ [' ']).length) :
    IsClosed held (text ++ [' ']) := by
  induction text generalizing held with
  | nil =>
      match held, within with
      | 0, _ => exact rfl
      | 1, _ => exact rfl
  | cons c rest ih =>
      rw [List.cons_append] at within ⊢
      cases held with
      | succ held => exact ih (Nat.le_of_succ_le_succ within)
      | zero =>
          unfold IsClosed
          by_cases layout : Text.isLayout c = true
          · rw [if_pos layout]
            exact ih (Nat.zero_le _)
          · rw [if_neg layout]
            have spaced : ' ' ∈ rest ++ [' '] := List.mem_concat_self
            by_cases ampersand : c = '&'
            · subst ampersand
              exact ⟨fun _ => rfl, ih (List.length_pos_of_mem spaced)⟩
            · by_cases bar : c = '|'
              · subst bar
                exact ⟨fun _ => rfl, ih (List.length_pos_of_mem spaced)⟩
              · have short := first_of_space ampersand bar spaced
                exact ⟨fun more => first_of_short more short, ih (Nat.le_of_lt short)⟩

theorem lastMark?_append (first second : List Char) :
    Text.lastMark? (first ++ second) = (Text.lastMark? second).or (Text.lastMark? first) := by
  rw [Text.lastMark?, List.filter_append, List.getLast?_append]
  rfl

/-- A text lacks no terminator if it has more than one line or its last mark, if there is one, is a terminator. -/
theorem lacksTerminator_eq_false_iff {text : List Char} :
    lacksTerminator text = false ↔ '\n' ∈ text ∨ ∀ mark ∈ Text.lastMark? text, mark = ';' := by
  unfold lacksTerminator
  cases Text.lastMark? text with
  | none => simp only [Option.not_mem_none, false_implies, implies_true, or_true]
  | some mark =>
      simp only [Bool.and_eq_false_iff, bne_eq_false_iff_eq, Bool.not_eq_false', List.contains_iff_mem,
        Option.mem_some_iff, forall_eq']
      exact Or.comm

theorem lacksTerminator_terminated (text : List Char) : lacksTerminator (terminated text) = false := by
  unfold terminated
  cases lacks : lacksTerminator text with
  | false => exact lacks
  | true =>
      rw [if_pos rfl, lacksTerminator_eq_false_iff, lastMark?_append]
      refine Or.inr fun mark last => ?_
      cases last
      rfl

theorem lacksTerminator_append {first second : List Char} (whole : lacksTerminator first = false)
    (wholeNext : lacksTerminator second = false) : lacksTerminator (first ++ second) = false := by
  rw [lacksTerminator_eq_false_iff] at whole wholeNext ⊢
  rw [List.mem_append, lastMark?_append]
  rcases wholeNext with newline | last
  · exact Or.inl (Or.inr newline)
  · rcases whole with newline | lastFirst
    · exact Or.inl (Or.inl newline)
    · refine Or.inr fun mark found => ?_
      rcases Option.or_eq_some_iff.mp found with found | ⟨-, found⟩
      · exact last mark found
      · exact lastFirst mark found

def terminatedText (source : String) : String := String.ofList (terminated source.toList)

theorem ofSource_terminatedText (source : String) : ofSource (terminatedText source) = ofSource source := by
  rw [ofSource, terminatedText, String.toList_ofList,
    terminated_eq_self (lacksTerminator_terminated source.toList)]
  rfl

/-- Behind a text whose lexemes end a statement, the tokens of another text are the same but for their places. -/
theorem ofSource_append {first : String} (ended : AreTerminated (ofSource first).lexemes)
    (second : String) :
    ofSource (terminatedText first ++ terminatedText second) =
      (ofSource first).append ((ofSource second).behind (terminatedText first).toList) := by
  rw [lexemes_ofSource] at ended
  have closed := isClosed_of_areTerminated (Nat.zero_le _) ended
  have whole := lacksTerminator_append (lacksTerminator_terminated first.toList)
    (lacksTerminator_terminated second.toList)
  have counted : 1 ≤ Position.start.line := Nat.le_refl _
  rw [ofSource, String.toList_append]
  simp only [terminatedText, String.toList_ofList]
  rw [terminated_eq_self whole, ofChars_append closed, ← Position.behind_start,
    ofChars_behind _ counted]
  rfl

theorem lexemes_append (first second : Scan) :
    (first.append second).lexemes = first.lexemes ++ second.lexemes :=
  List.map_append

theorem lexemes_behind (text : List Char) (scan : Scan) : (scan.behind text).lexemes = scan.lexemes := by
  rw [lexemes, behind, List.map_map]
  rfl

theorem positionAt_append (first second : Scan) (index : Nat) :
    (first.append second).positionAt (first.lexemes.length + index) = second.positionAt index := by
  rw [length_lexemes, positionAt, append, List.getElem?_append_right (Nat.le_add_right _ _),
    Nat.add_sub_cancel_left]
  rfl

/-- Behind a space, a visible character begins a token whose place is the one that the text before it leads to. -/
theorem ofSource_of_space {source : String} {before : List Char} {c : Char} {after : List Char}
    (parts : terminated source.toList = before ++ [' '] ++ c :: after)
    (visible : Text.isLayout c = false) :
    (ofSource source).lexemes = cut 0 (before ++ [' ']) ++ cut 0 (c :: after) ∧
      (ofSource source).positionAt (cut 0 (before ++ [' '])).length =
        Position.start.advanceAll (before ++ [' ']) := by
  have closed : IsClosed 0 (before ++ [' ']) := isClosed_of_space (Nat.zero_le _)
  have place := positionAt_append (ofChars .start 0 (before ++ [' ']))
    (ofChars (Position.start.advanceAll (before ++ [' '])) 0 (c :: after)) 0
  rw [Nat.add_zero, lexemes_ofChars] at place
  rw [ofSource, parts, ofChars_append closed, lexemes_append, lexemes_ofChars, lexemes_ofChars, place,
    ofChars_of_visible (Bool.eq_false_iff.mp visible)]
  exact ⟨rfl, rfl⟩

theorem positionAt_behind (text : List Char) (scan : Scan) (index : Nat) :
    (scan.behind text).positionAt index = (scan.positionAt index).behind text := by
  simp only [positionAt, behind, List.getElem?_map]
  cases scan.tokens[index]? <;> rfl

end Scan

end Abacus
